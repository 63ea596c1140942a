import GraphQL.Delivery.Stage
import Mathlib.Tactic.Common

/-!
# Where a step of a response leads

`Leads m s Q` says that whenever the step `m` comes to an end from the stage `s`, its outcome and the stage that is
reached have the property `Q`.  The rules below take a property back through a step, along the way in which steps are
put together, so that a statement about a step is proved by following its definition.
-/

namespace GraphQL

variable {ω ε α β : Type}

/-- Every outcome of a step, with the stage that is reached, has a property. -/
def Leads (m : StageM ω ε α) (s : Stage ω ε) (Q : α → Stage ω ε → Prop) : Prop :=
  ∀ a s', m.run s = some (a, s') → Q a s'

namespace Leads

variable {s : Stage ω ε} {Q Q' : α → Stage ω ε → Prop}

theorem imp {m : StageM ω ε α} (h : Leads m s Q) (himp : ∀ a s', Q a s' → Q' a s') : Leads m s Q' :=
  fun a s' hm => himp a s' (h a s' hm)

theorem both {m : StageM ω ε α} (h : Leads m s Q) (h' : Leads m s Q') : Leads m s fun a s' => Q a s' ∧ Q' a s' :=
  fun a s' hm => ⟨h a s' hm, h' a s' hm⟩

theorem pure {a : α} (h : Q a s) : Leads (Pure.pure a) s Q := by
  intro b s' hm
  simp only [StateT.run_pure, Option.pure_def, Option.some.injEq, Prod.mk.injEq] at hm
  obtain ⟨rfl, rfl⟩ := hm
  exact h

theorem bind {m : StageM ω ε α} {k : α → StageM ω ε β} {R : β → Stage ω ε → Prop}
    (h : Leads m s fun a s' => Leads (k a) s' R) : Leads (m >>= k) s R := by
  intro b s'' hm
  rw [StateT.run_bind] at hm
  cases hrun : m.run s with
  | none =>
    rw [hrun] at hm
    exact absurd hm (by simp)
  | some p =>
    obtain ⟨a, s'⟩ := p
    rw [hrun] at hm
    exact h a s' hrun b s'' hm

/-- First one step, then another one. -/
theorem andThen {m : StageM ω ε α} {k : α → StageM ω ε β} {R : β → Stage ω ε → Prop} (h : Leads m s Q)
    (hk : ∀ a s', Q a s' → Leads (k a) s' R) : Leads (m >>= k) s R :=
  bind (h.imp hk)

theorem get {Q : Stage ω ε → Stage ω ε → Prop} (h : Q s s) : Leads MonadState.get s Q := by
  intro a s' hm
  simp only [StateT.run_get, Option.pure_def, Option.some.injEq, Prod.mk.injEq] at hm
  obtain ⟨rfl, rfl⟩ := hm
  exact h

theorem set {t : Stage ω ε} {Q : PUnit → Stage ω ε → Prop} (h : Q ⟨⟩ t) : Leads (MonadStateOf.set t) s Q := by
  intro a s' hm
  simp only [StateT.run_set, Option.pure_def, Option.some.injEq, Prod.mk.injEq] at hm
  obtain ⟨-, rfl⟩ := hm
  exact h

theorem modifyGet {f : Stage ω ε → α × Stage ω ε} (h : Q (f s).1 (f s).2) :
    Leads (MonadState.modifyGet f) s Q := by
  intro a s' hm
  simp only [StateT.run_modifyGet, Option.pure_def, Option.some.injEq, Prod.mk.injEq] at hm
  obtain ⟨rfl, rfl⟩ := hm
  exact h

theorem modify {f : Stage ω ε → Stage ω ε} {Q : PUnit → Stage ω ε → Prop} (h : Q ⟨⟩ (f s)) :
    Leads (modify f) s Q :=
  modifyGet h

theorem failure : Leads (failure : StageM ω ε α) s Q := by
  intro a s' hm
  exact absurd hm (by simp)

end Leads

end GraphQL
