import GraphQL.Execution.Run
import GraphQL.Proofs.Delivery.Updates
import GraphQL.Proofs.Execution.Sites

/-!
# What running work can do

All that running work does to the publisher and to the tasks is a series of *moves*: it reports records, takes and
spawns tasks, notes errors, filters, and completes or fails the records of its tasks.  A move is said once here, with
what holds whenever it is made; what every execution preserves is then shown move by move.

Between the report of a record and the spawning of its task, and while its task runs, a record has no task among those
that are waiting.  Such records are *in hand*: a move goes from the records in hand and the stage before it to those
after it.
-/

namespace GraphQL

/-- The stage of an execution. -/
abbrev ExecStage := Stage Task Memory

namespace Task

/-- The record that a task completes next. -/
def record : Task → RecordId
  | fieldSet _ id _ => id
  | item _ id _ => id
  | fetch f => f.record

end Task

namespace Stage

/-- The tasks that are not done and not running. -/
def tasks (s : ExecStage) : List Task := s.work.ready ++ s.work.waiting ++ s.publisher.inbox

/-- The records whose tasks are not done and not running. -/
def awaited (s : ExecStage) : List RecordId := s.tasks.map Task.record

/-- A change that leaves publisher and tasks as they are. -/
structure Beside (s s' : ExecStage) : Prop where
  publisher : s'.publisher = s.publisher
  work : s'.work = s.work
  outputDone : s'.outputDone = s.outputDone

/-- No task fetches items of the stream. -/
def Idle (s : ExecStage) (stream : StreamId) : Prop := ∀ f, .fetch f ∈ s.tasks → f.stream ≠ stream

/-- Changes the publisher. -/
def withPublisher (s : ExecStage) (p : Publisher Task) : ExecStage := { s with publisher := p }

end Stage

namespace Publisher

variable (p : Publisher Task)

/-- The record is a set of fields. -/
def IsFieldSet (id : RecordId) : Prop := ∃ r, p.record? id = some (.fieldSet r)

/-- The record stands for items. -/
def IsItems (id : RecordId) : Prop := ∃ r, p.record? id = some (.items r)

/-- Values can be completed for the record: it is there, and no fragment. -/
def IsHome (id : RecordId) : Prop := ∃ r, p.record? id = some r ∧ ∀ f, r ≠ .fragment f

/-- The stream has no records yet. -/
def Unused (stream : StreamId) : Prop := ∀ id r, p.record? id = some (.items r) → r.stream ≠ stream

/-- The record is the last one of its stream and waits for items, and nothing of the stream is final. -/
def Tail (stream : StreamId) (id : RecordId) : Prop :=
  (∃ r, p.record? id = some (.items r) ∧ r.stream = stream ∧ r.completed = false) ∧
    ∀ other r, p.record? other = some (.items r) → r.stream = stream →
      other.index ≤ id.index ∧ r.final = false

/-- The path leads to an item of the streamed list. -/
def ItemPath (stream : StreamId) (path : Path) : Prop :=
  ∃ s, p.stream? stream = some s ∧ ∃ i, path = s.path.index i

/-- A site reports for the record, with deferred fragments that are there. -/
structure Serves (id record : RecordId) (deferMap : DeferMap) : Prop where
  record : record = id
  home : p.IsHome id
  fragments : ∀ e ∈ deferMap, p.IsFragment e.2

/-- The record waits for a task: it is a set of fields, or its items are to come. -/
def IsOpen (id : RecordId) : Prop :=
  p.IsFieldSet id ∨ ∃ r, p.record? id = some (.items r) ∧ r.completed = false

/-- The record waits for items of the list at a path. -/
def AwaitsItem (listPath : Path) (id : RecordId) : Prop :=
  ∃ r s, p.record? id = some (.items r) ∧ r.completed = false ∧ p.stream? r.stream = some s ∧ s.path = listPath

/-- The task belongs to its record. -/
def Accepts : Task → Prop
  | .fieldSet _ id data => p.IsFieldSet id ∧ data.Sites (p.Serves id)
  | .item listPath id value => p.AwaitsItem listPath id ∧ value.Sites (p.Serves id)
  | .fetch f => p.Tail f.stream f.record ∧ ∃ s, p.stream? f.stream = some s ∧ s.path = f.path

end Publisher

open Stage in
/-- What running work does at a time, with the records in hand before and after. -/
inductive Move : List RecordId → ExecStage → List RecordId → ExecStage → Prop
  | reorder {hand hand' s s'} (hhand : hand.Perm hand') (hsame : s.publisher.Same s'.publisher)
      (htasks : s'.tasks.Perm s.tasks) (hdone : s'.outputDone = s.outputDone) : Move hand s hand' s'
  | take {hand s s'} {task : Task} (hsame : s.publisher.Same s'.publisher) (htasks : s.tasks.Perm (task :: s'.tasks))
      (hdone : s'.outputDone = s.outputDone) : Move hand s (task.record :: hand) s'
  | rest {hand s s'} {task : Task} (htask : s.publisher.Accepts task) (hsame : s.publisher.Same s'.publisher)
      (htasks : s'.tasks.Perm (task :: s.tasks)) (hdone : s'.outputDone = s.outputDone) :
      Move (task.record :: hand) s hand s'
  | fragment {hand s} (path : Path) (label : Option String) {parent : RecordId}
      (hparent : parent.index < s.publisher.records.size) :
      Move hand s hand (s.withPublisher (s.publisher.addFragment path label parent).1)
  | fieldSet {hand s} (path : Path) {fragments : List RecordId}
      (hfragments : ∀ f ∈ fragments, s.publisher.IsFragment f) :
      Move hand s ((s.publisher.addFieldSet path fragments).2 :: hand)
        (s.withPublisher (s.publisher.addFieldSet path fragments).1)
  | stream {hand s} (path : Path) (label : Option String) (hook : Option HookId) :
      Move hand s hand (s.withPublisher (s.publisher.addStream path label hook).1)
  | items {hand s} {stream : StreamId} {path : Path} {parent : RecordId}
      (hparent : parent.index < s.publisher.records.size) (hpath : s.publisher.ItemPath stream path)
      (hlast : s.publisher.Unused stream ∨ s.publisher.Tail stream parent) (hidle : s.Idle stream) :
      Move hand s ((s.publisher.addItems stream path parent).2 :: hand)
        (s.withPublisher (s.publisher.addItems stream path parent).1)
  | error {hand s} {id : RecordId} (e : Error) (hid : s.publisher.IsHome id) :
      Move hand s hand (s.withPublisher (s.publisher.addError id e))
  | filter {hand s} (path : Path) (id : RecordId) :
      Move hand s hand (s.publishAndClose fun p => p.filter path id)
  | final {hand s} {stream : StreamId} {id : RecordId} (hlast : s.publisher.Tail stream id) (hidle : s.Idle stream) :
      Move hand s hand (s.withPublisher (s.publisher.setFinal id))
  | completeSet {hand s} {id : RecordId} (data : Json) (hid : s.publisher.IsFieldSet id) :
      Move (id :: hand) s hand (s.withPublisher (s.publisher.completeFieldSet id data))
  | failSet {hand s} {id : RecordId} (e : Error) (hid : s.publisher.IsFieldSet id) :
      Move (id :: hand) s hand (s.withPublisher (s.publisher.failFieldSet id e))
  | completeItems {hand s} {id : RecordId} (items : List Json) (hid : s.publisher.IsItems id) :
      Move (id :: hand) s hand (s.withPublisher (s.publisher.completeItems id items))
  | failItems {hand s} {listPath : Path} {id : RecordId} (e : Error) (hid : s.publisher.AwaitsItem listPath id) :
      Move (id :: hand) s hand
        ((s.publishAndClose fun p => p.filter listPath id).publishAndClose fun p => p.failItems id e)
  | endItems {hand s} {stream : StreamId} {id : RecordId} (hlast : s.publisher.Tail stream id) :
      Move (id :: hand) s hand (s.withPublisher ((s.publisher.setEnd id).completeItems id []))
  | retireItems {hand s} {id : RecordId} (hid : s.publisher.IsItems id) :
      Move (id :: hand) s hand (s.withPublisher (s.publisher.retireItems id))

/-- A series of moves. -/
inductive Moves : List RecordId → ExecStage → List RecordId → ExecStage → Prop
  | refl {hand s} : Moves hand s hand s
  | step {hand s hand' s' hand'' s''} (h : Moves hand s hand' s') (m : Move hand' s' hand'' s'') :
      Moves hand s hand'' s''

namespace Move

variable {hand hand' : List RecordId} {s s' : ExecStage}

theorem perm (h : hand.Perm hand') : Move hand s hand' s :=
  reorder h (Publisher.Same.refl _) (List.Perm.refl _) rfl

theorem aside (h : s.Beside s') : Move hand s hand s' := by
  refine reorder (List.Perm.refl _) (by rw [h.publisher]; exact Publisher.Same.refl _) ?_ h.outputDone
  unfold Stage.tasks
  rw [h.publisher, h.work]

end Move

namespace Moves

theorem of_move {hand hand' : List RecordId} {s s' : ExecStage} (m : Move hand s hand' s') : Moves hand s hand' s' :=
  step refl m

theorem trans {hand hand' hand'' : List RecordId} {s s' s'' : ExecStage} (h : Moves hand s hand' s')
    (h' : Moves hand' s' hand'' s'') : Moves hand s hand'' s'' := by
  induction h' with
  | refl => exact h
  | step _ m ih => exact step ih m

end Moves

end GraphQL
