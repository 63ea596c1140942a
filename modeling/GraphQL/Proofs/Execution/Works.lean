import GraphQL.Proofs.Execution.Leads
import GraphQL.Proofs.Execution.Soundness

/-!
# Steps that work by moves

`Works m hand s Q` says that whatever the step `m` does from a stage with a task for each open record is a series of
moves, and that its outcome, the records in hand and the stage after it have the property `Q`.  Steps that leave
publisher and tasks alone are `Quiet`.
-/

namespace GraphQL

open Execution Stage

variable {α β : Type}

namespace Stage.Beside

variable {s s' s'' : ExecStage}

theorem refl (s : ExecStage) : s.Beside s := ⟨rfl, rfl, rfl⟩

theorem trans (h : s.Beside s') (h' : s'.Beside s'') : s.Beside s'' :=
  ⟨h'.publisher.trans h.publisher, h'.work.trans h.work, h'.outputDone.trans h.outputDone⟩

end Stage.Beside

/-! ### Quiet steps -/

/-- The step leaves publisher and tasks as they are, and its outcome has a property. -/
def Quiet (m : ExecM α) (P : α → Prop) : Prop := ∀ s, Leads m s fun a s' => s.Beside s' ∧ P a

namespace Quiet

variable {P P' : α → Prop}

theorem pure {a : α} (h : P a) : Quiet (Pure.pure a) P := fun s => Leads.pure ⟨Beside.refl s, h⟩

theorem bind {m : ExecM α} {k : α → ExecM β} {R : β → Prop} (h : Quiet m P) (hk : ∀ a, P a → Quiet (k a) R) :
    Quiet (m >>= k) R :=
  fun s => (h s).andThen fun a s' ha => (hk a ha.2 s').imp fun _ _ hb => ⟨ha.1.trans hb.1, hb.2⟩

theorem modify {f : ExecStage → ExecStage} (h : ∀ s : ExecStage, s.Beside (f s)) :
    Quiet (modify f : ExecM PUnit) fun _ => True :=
  fun s => Leads.modify ⟨h s, trivial⟩

theorem modifyGet {f : ExecStage → α × ExecStage} (h : ∀ s : ExecStage, s.Beside (f s).2) :
    Quiet (MonadState.modifyGet f : ExecM α) fun _ => True :=
  fun s => Leads.modifyGet ⟨h s, trivial⟩

end Quiet

/-! ### Working steps -/

/-- From a stage with a task for each open record, the step is a series of moves, and its outcome has a property. -/
def Works (m : ExecM α) (hand : List RecordId) (s : ExecStage) (Q : α → List RecordId → ExecStage → Prop) : Prop :=
  Sound hand s → Leads m s fun a s' => ∃ hand', Moves hand s hand' s' ∧ Q a hand' s'

/-- Only records from the next number on are new. -/
theorem Move.growsFrom {hand hand' : List RecordId} {s s' : ExecStage} (m : Move hand s hand' s') :
    Publisher.Grows s.publisher.records.size s.publisher s'.publisher := by
  have hclose : ∀ (n : Nat) (t : ExecStage) (f : Publisher Task → Publisher Task × List StreamId),
      Publisher.Grows n t.publisher (f t.publisher).1 → Publisher.Grows n t.publisher (t.publishAndClose f).publisher :=
    fun n t f h => h.trans ((closeStreams_eq (t.withPublisher (f t.publisher).1) _).2.1.grows n)
  cases m with
  | reorder _ hsame => exact hsame.grows _
  | take hsame => exact hsame.grows _
  | rest _ hsame => exact hsame.grows _
  | fragment => exact Publisher.Grows.addFragment _ _ _ _
  | fieldSet => exact Publisher.Grows.addFieldSet _ _ _
  | stream => exact Publisher.Grows.addStream _ _ _ _
  | items => exact Publisher.Grows.addItems _ _ _ _
  | error => exact Publisher.Grows.addError _ _ _
  | filter path id => exact hclose _ s _ (Publisher.Grows.filter _ path id)
  | final => exact Publisher.Grows.setFinal _ _
  | completeSet => exact Publisher.Grows.completeFieldSet _ _ _
  | failSet => exact Publisher.Grows.failFieldSet _ _ _
  | completeItems => exact Publisher.Grows.completeItems _ _ _
  | @failItems _ _ listPath id e =>
    exact (hclose _ s (fun p => p.filter listPath id) (Publisher.Grows.filter _ listPath id)).trans
      (hclose _ _ (fun p => p.failItems id e) (Publisher.Grows.failItems _ id e))
  | endItems => exact (Publisher.Grows.setEnd _ _).trans (Publisher.Grows.completeItems _ _ _)
  | retireItems => exact Publisher.Grows.retireItems _ _

theorem Move.grows {hand hand' : List RecordId} {s s' : ExecStage} (m : Move hand s hand' s') :
    Publisher.Grows 0 s.publisher s'.publisher :=
  m.growsFrom.mono (Nat.zero_le _)

theorem Moves.grows {hand hand' : List RecordId} {s s' : ExecStage} (m : Moves hand s hand' s') :
    Publisher.Grows 0 s.publisher s'.publisher := by
  induction m with
  | refl => exact Publisher.Grows.refl _
  | step _ m ih => exact ih.trans m.grows

theorem Moves.outputDone {hand hand' : List RecordId} {s s' : ExecStage} (m : Moves hand s hand' s') :
    s'.outputDone = s.outputDone := by
  have hclose : ∀ (t : ExecStage) (f : Publisher Task → Publisher Task × List StreamId),
      (t.publishAndClose f).outputDone = t.outputDone :=
    fun t f => (closeStreams_eq (t.withPublisher (f t.publisher).1) _).2.2
  induction m with
  | refl => rfl
  | step _ m ih =>
    refine Eq.trans ?_ ih
    cases m with
    | reorder _ _ _ hdone => exact hdone
    | take _ _ hdone => exact hdone
    | rest _ _ _ hdone => exact hdone
    | filter => exact hclose _ _
    | failItems => exact (hclose _ _).trans (hclose _ _)
    | _ => rfl

namespace Works

variable {hand hand' : List RecordId} {s : ExecStage} {Q Q' : α → List RecordId → ExecStage → Prop}

theorem pure {a : α} (h : Q a hand s) : Works (Pure.pure a) hand s Q :=
  fun _ => Leads.pure ⟨hand, Moves.refl, h⟩

theorem bind {m : ExecM α} {k : α → ExecM β} {R : β → List RecordId → ExecStage → Prop} (h : Works m hand s Q)
    (hk : ∀ a hand' s', Publisher.Grows 0 s.publisher s'.publisher → Q a hand' s' → Works (k a) hand' s' R) :
    Works (m >>= k) hand s R := by
  intro hs
  refine (h hs).andThen fun a s' ⟨hand', hm, hq⟩ => ?_
  exact (hk a hand' s' hm.grows hq (hm.sound hs)).imp fun b s'' ⟨hand'', hm', hr⟩ => ⟨hand'', hm.trans hm', hr⟩

/-- What holds of the stage with its records in hand may be used. -/
theorem sound {m : ExecM α} (h : Sound hand s → Works m hand s Q) : Works m hand s Q := fun hs => h hs hs

theorem failure : Works (failure : ExecM α) hand s Q := fun _ => Leads.failure

theorem quiet {m : ExecM α} {P : α → Prop} (h : Quiet m P)
    (hq : ∀ a s', s'.publisher = s.publisher → s'.tasks = s.tasks → P a → Q a hand s') : Works m hand s Q := by
  intro _
  refine (h s).imp fun a s' ⟨hb, ha⟩ => ⟨hand, Moves.of_move (Move.aside hb), hq a s' hb.publisher ?_ ha⟩
  unfold tasks
  rw [hb.work, hb.publisher]

theorem quiet_bind {m : ExecM α} {k : α → ExecM β} {P : α → Prop} {R : β → List RecordId → ExecStage → Prop}
    (h : Quiet m P)
    (hk : ∀ a s', s'.publisher = s.publisher → s'.tasks = s.tasks → P a → Works (k a) hand s' R) :
    Works (m >>= k) hand s R :=
  bind (quiet h (Q := fun a hand' s' => hand = hand' ∧ s'.publisher = s.publisher ∧ s'.tasks = s.tasks ∧ P a)
    fun _ _ hp ht ha => ⟨rfl, hp, ht, ha⟩) fun a _ s' _ ⟨heq, hp, ht, ha⟩ => heq ▸ hk a s' hp ht ha

/-- A quiet step that is taken under a condition. -/
theorem quiet_ite {b : Prop} [Decidable b] {m : ExecM PUnit} {k : ExecM β} {R : β → List RecordId → ExecStage → Prop}
    (h : Quiet m fun _ => True) (hk : ∀ s', s'.publisher = s.publisher → Works k hand s' R) :
    Works (if b then (m >>= fun _ => k) else k) hand s R := by
  split
  · exact quiet_bind h fun _ s' hp _ _ => hk s' hp
  · exact hk s rfl

theorem get_bind {k : ExecStage → ExecM β} {R : β → List RecordId → ExecStage → Prop} (h : Works (k s) hand s R) :
    Works (MonadState.get >>= k) hand s R :=
  fun hs => Leads.bind (Leads.get (h hs))

theorem set_bind {t : ExecStage} {k : PUnit → ExecM β} {R : β → List RecordId → ExecStage → Prop} (hb : s.Beside t)
    (h : Works (k ⟨⟩) hand t R) : Works (MonadStateOf.set t >>= k) hand s R := by
  intro hs
  refine Leads.bind (Leads.set ((h (Move.sound (Move.aside hb) hs)).imp fun b s' ⟨hand', hm, hr⟩ => ⟨hand', ?_, hr⟩))
  exact (Moves.of_move (Move.aside hb)).trans hm

theorem publish {f : Publisher Task → Publisher Task × α} (m : Move hand s hand' (s.withPublisher (f s.publisher).1))
    (h : Q (f s.publisher).2 hand' (s.withPublisher (f s.publisher).1)) : Works (Execution.publish f) hand s Q :=
  fun _ => Leads.bind (Leads.get (Leads.bind (Leads.set (Leads.pure ⟨hand', Moves.of_move m, h⟩))))

theorem publishUnit {f : Publisher Task → Publisher Task} {Q : Unit → List RecordId → ExecStage → Prop}
    (m : Move hand s hand' (s.withPublisher (f s.publisher))) (h : Q () hand' (s.withPublisher (f s.publisher))) :
    Works (Execution.publishUnit f) hand s Q :=
  publish (f := fun p => (f p, ())) m h

theorem modify {f : ExecStage → ExecStage} {Q : PUnit → List RecordId → ExecStage → Prop}
    (m : Moves hand s hand' (f s)) (h : Q ⟨⟩ hand' (f s)) : Works (modify f : ExecM PUnit) hand s Q :=
  fun _ => Leads.modify ⟨hand', m, h⟩

/-- The order of the records in hand does not matter. -/
theorem perm {m : ExecM α} {hand₁ : List RecordId} (hperm : hand.Perm hand₁) (h : Works m hand₁ s Q) :
    Works m hand s Q := by
  intro hs
  refine (h (Move.sound (Move.perm hperm) hs)).imp fun a s' ⟨hand', hm, hq⟩ => ⟨hand', ?_, hq⟩
  exact (Moves.of_move (Move.perm hperm)).trans hm

theorem spawn (task : Task) {Q : Unit → List RecordId → ExecStage → Prop} (htask : s.publisher.Accepts task)
    (h : s.publisher.Same (s.spawn task).publisher → (s.spawn task).tasks = s.tasks ++ [task] →
      Q () hand (s.spawn task)) : Works (Execution.spawn task) (task.record :: hand) s Q :=
  sound fun hs => by
    have hsame := same_spawn hs.closed task
    have htasks := tasks_spawn hs.closed task
    have hperm : (s.spawn task).tasks.Perm (task :: s.tasks) := htasks ▸ List.perm_append_singleton task s.tasks
    exact modify (Moves.of_move (Move.rest htask hsame hperm (outputDone_spawn hs.closed task))) (h hsame htasks)

end Works

end GraphQL
