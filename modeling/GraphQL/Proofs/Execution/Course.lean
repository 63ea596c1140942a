import GraphQL.Proofs.Execution.SessionMoves

/-!
# The course of a response after its answer

After the answer, the consumer pulls one result after the other, and time passes between the pulls (`Pulls`).  What
happens within the pulls is a `Course`: work is taken from the inbox, tasks are run, in any order, the clock moves, and
from time to time the publisher is looked at for a result.  A course keeps the publishers that were looked at; the
results that were pulled are those that the looks gave (`Pulls.course`).
-/

namespace GraphQL

open Execution Stage

/-- Begins the operation and runs up to the answer with any fuel. -/
def ExecutionContext.respondWith (c : ExecutionContext) (fuel : Nat) : ExecM (Option Answer) := do
  match ← beginOperation c with
  | .done outcome => return some (← answer outcome)
  | .go job => awaitAnswer c fuel fuel job

/-- The execution was answered with an initial result, and more is to come from a stage on. -/
def ExecutionContext.Answered (c : ExecutionContext) (initial : InitialResult) (s : ExecStage) : Prop :=
  ∃ fuel, (c.respondWith fuel).run c.stage = some (some (.incremental initial), s)

/-- The result that a pull gives. -/
def Pulled.result? : Pulled → Option SubsequentResult
  | result r => some r
  | _ => none

/-- The results that are pulled from a stage on, with time passing between the pulls. -/
inductive Pulls (c : ExecutionContext) (s₀ : ExecStage) : List SubsequentResult → ExecStage → Prop
  | start : Pulls c s₀ [] s₀
  | pull {results s fuel rounds pulled s'} (h : Pulls c s₀ results s)
      (hpull : (Stage.pull (Task.run c fuel) rounds).run s = some (pulled, s')) :
      Pulls c s₀ (results ++ pulled.result?.toList) s'
  | advance {results s} (h : Pulls c s₀ results s) (time : Nat) : Pulls c s₀ results (s.advanceTo time)

/-- What happens from a stage on, with the publishers that are looked at for results. -/
inductive Course (c : ExecutionContext) (s₀ : ExecStage) : List (Publisher Task) → ExecStage → Prop
  | start : Course c s₀ [] s₀
  | inbox {looks s} (h : Course c s₀ looks s) : Course c s₀ looks s.takeInbox
  | look {looks s} (h : Course c s₀ looks s) : Course c s₀ (looks ++ [s.publisher]) s.look
  | work {looks s task rest fuel b s'} (h : Course c s₀ looks s) (hready : s.work.ready.Perm (task :: rest))
      (hrun : (runOne (Task.run c fuel) task).run (s.withReady rest) = some (b, s')) : Course c s₀ looks s'
  | advance {looks s} (h : Course c s₀ looks s) (time : Nat) : Course c s₀ looks (s.advanceTo time)

/-- What happens from a stage on, with the publishers that are looked at for results, and whether a task may run next: it
may after a look that gives nothing, as long as no task is done. -/
inductive Turns (c : ExecutionContext) (s₀ : ExecStage) : Bool → List (Publisher Task) → ExecStage → Prop
  | start : Turns c s₀ false [] s₀
  | inbox {free looks s} (h : Turns c s₀ free looks s) : Turns c s₀ free looks s.takeInbox
  | advance {free looks s} (h : Turns c s₀ free looks s) (time : Nat) : Turns c s₀ free looks (s.advanceTo time)
  | told {free looks s r} (h : Turns c s₀ free looks s) (hresult : s.publisher.nextResult?.2 = some r) :
      Turns c s₀ false (looks ++ [s.publisher]) s.look
  | silent {free looks s} (h : Turns c s₀ free looks s) (hnone : s.publisher.nextResult?.2 = none) :
      Turns c s₀ true (looks ++ [s.publisher]) s.look
  | work {looks s task rest fuel done s'} (h : Turns c s₀ true looks s) (hready : s.work.ready.Perm (task :: rest))
      (hrun : (runOne (Task.run c fuel) task).run (s.withReady rest) = some (done, s')) : Turns c s₀ (!done) looks s'
  | pause {looks s} (h : Turns c s₀ true looks s) : Turns c s₀ false looks s

variable {c : ExecutionContext} {s₀ s : ExecStage} {looks : List (Publisher Task)}

theorem ExecutionContext.sound_stage (c : ExecutionContext) :
    Sound [] c.stage ∧ c.stage.publisher.IsHome .initial := by
  have hrecord : ∀ id r, c.stage.publisher.record? id = some r → id = .initial ∧ r = .initial {} := by
    intro id r hr
    obtain ⟨index⟩ := id
    cases index with
    | zero => exact ⟨rfl, (Option.some.inj hr).symm⟩
    | succ index => exact absurd hr (by simp [Publisher.record?, ExecutionContext.stage])
  refine ⟨⟨rfl, ⟨⟨?_, ?_, ?_, ?_⟩, ⟨List.nodup_nil, List.nodup_nil, ?_, ?_, ?_, ?_⟩⟩, List.nodup_nil, ?_, ?_, ?_, ?_⟩,
    .initial {}, rfl, by simp⟩
  · intro id r hr child hchild
    obtain ⟨-, rfl⟩ := hrecord id r hr
    exact absurd hchild (by simp [Record.children])
  · intro id r hr
    exact absurd (hrecord id _ hr).2 (by simp)
  · intro id r hr set hset
    obtain ⟨-, rfl⟩ := hrecord id r hr
    exact absurd hset (by simp [Record.unfinished])
  · intro id r hr
    exact absurd (hrecord id _ hr).2 (by simp)
  · exact fun id hid => absurd hid (by simp [ExecutionContext.stage])
  · exact fun id hid => absurd hid (by simp [ExecutionContext.stage])
  · exact fun id r hid => absurd hid (by simp [ExecutionContext.stage])
  · exact fun id r hid => absurd hid (by simp [ExecutionContext.stage])
  · exact fun id hid => absurd hid (by simp)
  · exact fun task ht => absurd ht (by simp [tasks, ExecutionContext.stage])
  · intro id r hr set hset
    obtain ⟨-, rfl⟩ := hrecord id r hr
    exact absurd hset (by simp [Record.unfinished])
  · intro id r hr
    exact absurd (hrecord id _ hr).2 (by simp)

/-- Moves lead from the beginning to an answer that has more to come. -/
theorem ExecutionContext.Answered.answers {initial : InitialResult} (h : c.Answered initial s) :
    c.stage.Answers initial s := by
  obtain ⟨fuel, hrun⟩ := h
  obtain ⟨hs, hhome⟩ := c.sound_stage
  have hleads : Leads (c.respondWith fuel) c.stage fun a? s' => ∀ initial, a? = some (.incremental initial) →
      c.stage.Answers initial s' := by
    refine Leads.andThen (works_beginOperation c hhome hs) ?_
    rintro out s₁ ⟨_, hmoves, rfl, hout⟩
    cases out with
    | done outcome =>
      refine Leads.andThen (leads_answer outcome) fun a s₂ ha => Leads.pure fun initial heq => ?_
      cases heq
      obtain ⟨s₃, hmoves₃, hrest⟩ := ha initial rfl
      exact ⟨s₃, hmoves.trans hmoves₃, hrest⟩
    | go job =>
      refine (leads_awaitAnswer c fuel fuel (hmoves.sound hs) hout).imp fun a? s₂ ha initial heq => ?_
      obtain ⟨s₃, hmoves₃, hrest⟩ := ha initial heq
      exact ⟨s₃, hmoves.trans hmoves₃, hrest⟩
  exact hleads _ _ hrun initial rfl

/-- With an initial result, the execution goes on with a task for each open record. -/
theorem ExecutionContext.Answered.sound {initial : InitialResult} (h : c.Answered initial s) :
    Sound [] s ∧ s.outputDone = false ∧ initial.hasNext = true ∧ s.publisher.pending ≠ [] := by
  obtain ⟨s₁, hmoves, rfl, hnext, hpending⟩ := h.answers
  have hs₁ := hmoves.sound c.sound_stage.1
  have hchildren := hs₁.publisher.publishChildren .initial
  have herrors := hchildren.1.takeErrors
  exact ⟨hs₁.alike herrors.1 (hchildren.2.1.trans herrors.2), hmoves.outputDone, hnext, hpending⟩

theorem Course.trans {s₁ : ExecStage} {looks' : List (Publisher Task)} (h : Course c s₀ looks s₁)
    (h' : Course c s₁ looks' s) : Course c s₀ (looks ++ looks') s := by
  induction h' with
  | start => rw [List.append_nil]; exact h
  | inbox _ ih => exact ih.inbox
  | look _ ih => rw [← List.append_assoc]; exact ih.look
  | work _ hready hrun ih => exact ih.work hready hrun
  | advance _ time ih => exact ih.advance time

/-- Each publisher that was looked at is that of a stage on the course. -/
theorem Course.split {before after : List (Publisher Task)} {p : Publisher Task}
    (h : Course c s₀ (before ++ p :: after) s) :
    ∃ s₁, Course c s₀ before s₁ ∧ s₁.publisher = p ∧ Course c s₁.look after s := by
  generalize heq : before ++ p :: after = looks at h
  induction h generalizing after with
  | start => exact absurd heq (by simp)
  | inbox _ ih =>
    obtain ⟨s₁, h₁, hp, h₂⟩ := ih heq
    exact ⟨s₁, h₁, hp, h₂.inbox⟩
  | work _ hready hrun ih =>
    obtain ⟨s₁, h₁, hp, h₂⟩ := ih heq
    exact ⟨s₁, h₁, hp, h₂.work hready hrun⟩
  | advance _ time ih =>
    obtain ⟨s₁, h₁, hp, h₂⟩ := ih heq
    exact ⟨s₁, h₁, hp, h₂.advance time⟩
  | @look looks s h ih =>
    rcases List.eq_nil_or_concat after with rfl | ⟨after', u, rfl⟩
    · obtain ⟨rfl, rfl⟩ : before = looks ∧ p = s.publisher := by simpa using List.append_inj' heq rfl
      exact ⟨s, h, rfl, .start⟩
    · have heq' : (before ++ p :: after') ++ [u] = looks ++ [s.publisher] := by simpa using heq
      obtain ⟨hlooks, hu⟩ := List.append_inj' heq' rfl
      obtain rfl : u = s.publisher := by simpa using hu
      obtain ⟨s₁, h₁, hp, h₂⟩ := ih hlooks
      exact ⟨s₁, h₁, hp, by rw [List.concat_eq_append]; exact h₂.look⟩

/-- What moves and looks preserve holds on a course. -/
theorem Course.rec_moves {I : List (Publisher Task) → ExecStage → Prop} (h : Course c s₀ looks s) (h₀ : Sound [] s₀)
    (hstart : I [] s₀) (hmoves : ∀ looks s s', Sound [] s → Moves [] s [] s' → I looks s → I looks s')
    (hlook : ∀ looks s, Sound [] s → I looks s → I (looks ++ [s.publisher]) s.look) : Sound [] s ∧ I looks s := by
  have hstep : ∀ {looks s s'}, Sound [] s ∧ I looks s → Moves [] s [] s' → Sound [] s' ∧ I looks s' :=
    fun ⟨hs, hi⟩ hm => ⟨hm.sound hs, hmoves _ _ _ hs hm hi⟩
  induction h with
  | start => exact ⟨h₀, hstart⟩
  | inbox _ ih => exact hstep ih (moves_takeInbox [] _)
  | look _ ih => exact ⟨ih.1.look, hlook _ _ ih.1 ih.2⟩
  | work _ hready hrun ih => exact hstep ih (moves_runOne c ih.1 hready hrun)
  | advance _ time ih => exact hstep ih (moves_advanceTo [] _ time)

/-- A course keeps a task for each open record. -/
theorem Course.sound (h : Course c s₀ looks s) (h₀ : Sound [] s₀) : Sound [] s :=
  (h.rec_moves (I := fun _ _ => True) h₀ trivial (fun _ _ _ _ _ _ => trivial) fun _ _ _ _ => trivial).1

theorem Course.outputDone (h : Course c s₀ looks s) (h₀ : Sound [] s₀) : s.outputDone = s₀.outputDone :=
  (h.rec_moves (I := fun _ s => s.outputDone = s₀.outputDone) h₀ rfl
    (fun _ _ _ _ hm hdone => hm.outputDone.trans hdone) fun _ _ _ hdone => hdone).2

/-! ### Turns -/

namespace Turns

variable {free : Bool}

theorem course (h : Turns c s₀ free looks s) : Course c s₀ looks s := by
  induction h with
  | start => exact .start
  | inbox _ ih => exact ih.inbox
  | advance _ time ih => exact ih.advance time
  | told _ _ ih => exact ih.look
  | silent _ _ ih => exact ih.look
  | work _ hready hrun ih => exact ih.work hready hrun
  | pause _ ih => exact ih

theorem trans {s₁ : ExecStage} {looks' : List (Publisher Task)} {free' : Bool} (h : Turns c s₀ free looks s₁)
    (h' : Turns c s₁ free' looks' s) : Turns c s₀ free' (looks ++ looks') s := by
  induction h' with
  | start =>
    rw [List.append_nil]
    cases free with
    | false => exact h
    | true => exact h.pause
  | inbox _ ih => exact ih.inbox
  | advance _ time ih => exact ih.advance time
  | told _ hresult ih => rw [← List.append_assoc]; exact ih.told hresult
  | silent _ hnone ih => rw [← List.append_assoc]; exact ih.silent hnone
  | work _ hready hrun ih => exact ih.work hready hrun
  | pause _ ih => exact ih.pause

end Turns

end GraphQL
