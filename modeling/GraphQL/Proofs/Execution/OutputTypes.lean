import GraphQL.Proofs.Release.Released

/-!
# Jobs for output types

A job completes values of output types and resolves fields of object types, at all places inside it (`Job.Typed`), if the
one that it came from does.  This says which jobs and tasks are meant, and that it does not matter to them what becomes of
the publisher and the clock.
-/

namespace GraphQL

open Execution Stage

/-- Fields can have the type. -/
def TypeRef.IsOutput (schema : Schema) (type : TypeRef) : Prop :=
  (schema.typeKind? type.innermost).any TypeKind.isOutput = true

namespace Schema

variable (schema : Schema)

/-- The name is that of an object type. -/
def IsObject (name : String) : Prop := schema.typeKind? name = some .object

/-- All fields have output types, whatever they are fields of. -/
def OutputFields : Prop := ∀ parent name d, schema.field? parent name = some d → d.type.IsOutput schema

end Schema

/-! ### Jobs -/

namespace Job

mutual

/-- Values of output types are completed, and fields of object types resolved. -/
def Typed (schema : Schema) : Job → Prop
  | .field _ _ value => value.Typed schema
  | .failed _ => True
  | .complete type _ _ => type.IsOutput schema
  | .await type _ _ _ => type.IsOutput schema
  | .nonNull _ value => value.Typed schema
  | .gather _ _ children => TypedSlots schema children
  | .iterate type _ _ _ items => type.IsOutput schema ∧ TypedJobs schema items
  | .select fields => schema.IsObject fields.typeName
  | .serial fields _ (some (_, job)) _ => schema.IsObject fields.typeName ∧ job.Typed schema
  | .serial fields _ none _ => schema.IsObject fields.typeName

/-- The children that are running are jobs of this kind. -/
def TypedSlots (schema : Schema) : List (Slot Job) → Prop
  | [] => True
  | .running job :: rest => job.Typed schema ∧ TypedSlots schema rest
  | .finished _ :: rest => TypedSlots schema rest

/-- All jobs are of this kind. -/
def TypedJobs (schema : Schema) : List Job → Prop
  | [] => True
  | job :: rest => job.Typed schema ∧ TypedJobs schema rest

end

variable {schema : Schema}

theorem typedSlots_iff {slots : List (Slot Job)} :
    TypedSlots schema slots ↔ ∀ job, Slot.running job ∈ slots → job.Typed schema := by
  induction slots with
  | nil => simp [TypedSlots]
  | cons slot rest ih => cases slot <;> simp [TypedSlots, ih]

theorem typedJobs_iff {jobs : List Job} : TypedJobs schema jobs ↔ ∀ job ∈ jobs, job.Typed schema := by
  induction jobs with
  | nil => simp [TypedJobs]
  | cons job rest ih => simp [TypedJobs, ih]

/-- Children that were not run. -/
theorem typed_gather (shape : Shape) (started : Bool) {jobs : List Job} (h : ∀ job ∈ jobs, job.Typed schema) :
    (Job.gather shape started (jobs.map .running)).Typed schema := by
  refine typedSlots_iff.2 fun job hjob => ?_
  obtain ⟨job', hjob', heq⟩ := List.mem_map.1 hjob
  cases heq
  exact h job hjob'

theorem TypedSlots.set {slots : List (Slot Job)} (h : TypedSlots schema slots) (i : Nat) {slot : Slot Job}
    (hslot : ∀ job, slot = .running job → job.Typed schema) : TypedSlots schema (slots.set i slot) := by
  rw [typedSlots_iff] at h ⊢
  intro job hjob
  rcases List.mem_or_eq_of_mem_set hjob with hmem | heq
  · exact h job hmem
  · exact hslot job heq.symm

end Job

/-- What goes on is a job of this kind. -/
def Progress.Typed (schema : Schema) : Progress → Prop
  | .done _ => True
  | .go job => job.Typed schema

/-- What waits is a job of this kind. -/
def Ran.Typed (schema : Schema) : Ran → Prop
  | .done _ => True
  | .waiting job => job.Typed schema

/-- The task runs a job of this kind, or fetches items of an output type. -/
def Task.Typed (schema : Schema) : Task → Prop
  | .fieldSet _ _ data => data.Typed schema
  | .item _ _ value => value.Typed schema
  | .fetch f => f.itemType.IsOutput schema

/-! ### Stages -/

namespace Stage

variable {schema : Schema} {s s' : ExecStage}

/-- All tasks are of this kind. -/
def Typed (schema : Schema) (s : ExecStage) : Prop := ∀ task ∈ s.tasks, task.Typed schema

namespace Typed

/-- No task is new. -/
theorem subset (h : s.Typed schema) (hsub : s'.tasks ⊆ s.tasks) : s'.Typed schema := fun task htask => h task (hsub htask)

theorem beside (h : s.Typed schema) (hb : s.Beside s') : s'.Typed schema := by
  refine h.subset (List.Perm.of_eq ?_).subset
  unfold tasks
  rw [hb.work, hb.publisher]

/-- The publisher may change as long as it spawns nothing. -/
theorem withPublisher (h : s.Typed schema) {q : Publisher Task} (hq : s.publisher.KeepsHooks q) :
    (s.withPublisher q).Typed schema :=
  h.subset (List.Perm.of_eq (congrArg (s.work.ready ++ s.work.waiting ++ ·) hq.inbox)).subset

theorem closeStreams (h : s.Typed schema) (ids : List StreamId) : (s.closeStreams ids).Typed schema := by
  refine h.subset ?_
  rw [(closeStreams_eq s ids).1]
  exact List.filter_subset_self _

theorem publishAndClose (h : s.Typed schema) {f : Publisher Task → Publisher Task × List StreamId}
    (hf : s.publisher.KeepsHooks (f s.publisher).1) : (s.publishAndClose f).Typed schema :=
  (h.withPublisher hf).closeStreams _

theorem spawn (h : s.Typed schema) {task : Task} (htask : task.Typed schema) : (s.spawn task).Typed schema := by
  cases hclosed : s.publisher.closed with
  | true =>
    unfold Stage.spawn
    rw [if_pos hclosed]
    exact h.beside (dropWork_beside s task)
  | false =>
    intro t ht
    rw [tasks_spawn hclosed] at ht
    rcases List.mem_append.1 ht with ht | ht
    · exact h t ht
    · rw [List.mem_singleton.1 ht]
      exact htask

theorem takeInbox (h : s.Typed schema) : s.takeInbox.Typed schema := h.subset (tasks_takeInbox s).subset

theorem advanceTo (h : s.Typed schema) (time : Nat) : (s.advanceTo time).Typed schema :=
  h.subset (tasks_advanceTo s time).subset

theorem dropTaken (h : s.Typed schema) : s.dropTaken.Typed schema := by
  refine h.subset ?_
  rw [tasks_dropTaken]
  exact List.subset_append_right _ _

theorem closeInbox (h : s.Typed schema) : s.closeInbox.Typed schema := by
  refine h.subset ?_
  rw [tasks_closeInbox]
  exact List.subset_append_left _ _

theorem finish (s : ExecStage) : s.finish.Typed schema := by
  intro task htask
  rw [(over_finish s).tasks] at htask
  exact absurd htask List.not_mem_nil

theorem cancel (h : s.Typed schema) : s.cancel.Typed schema := by
  unfold Stage.cancel
  split
  · exact h
  · exact finish s

/-- A task that can run is taken. -/
theorem withReady (h : s.Typed schema) {task : Task} {rest : List Task} (hready : s.work.ready = task :: rest) :
    task.Typed schema ∧ (s.withReady rest).Typed schema := by
  have hperm := tasks_withReady (List.Perm.of_eq hready)
  refine ⟨h task (hperm.mem_iff.2 List.mem_cons_self), h.subset fun t ht => ?_⟩
  exact hperm.mem_iff.2 (List.mem_cons_of_mem _ ht)

end Typed

end Stage

/-! ### Steps that spawn nothing -/

section Steps

variable {schema : Schema} {s : ExecStage} {α : Type}

/-- The outcome has a property, and no task is spawned that is not of this kind. -/
def LeadsTyped (schema : Schema) (m : ExecM α) (s : ExecStage) (P : α → Prop) : Prop :=
  Leads m s fun a s' => s'.Typed schema ∧ P a

theorem Quiet.typed {m : ExecM α} {P : α → Prop} (hm : Quiet m P) (h : s.Typed schema) : LeadsTyped schema m s P :=
  (hm s).imp fun _ _ ⟨hb, ha⟩ => ⟨h.beside hb, ha⟩

theorem typed_publish {f : Publisher Task → Publisher Task × α} (h : s.Typed schema)
    (hf : ∀ p : Publisher Task, p.KeepsHooks (f p).1) : LeadsTyped schema (Execution.publish f) s fun _ => True :=
  Leads.bind (Leads.get (Leads.bind (Leads.set (Leads.pure ⟨h.withPublisher (hf _), trivial⟩))))

theorem typed_publishUnit {f : Publisher Task → Publisher Task} (h : s.Typed schema)
    (hf : ∀ p : Publisher Task, p.KeepsHooks (f p)) : LeadsTyped schema (Execution.publishUnit f) s fun _ => True :=
  typed_publish h hf

theorem typed_publishAndClose {f : Publisher Task → Publisher Task × List StreamId} (h : s.Typed schema)
    (hf : ∀ p : Publisher Task, p.KeepsHooks (f p).1) :
    LeadsTyped schema (Execution.publishAndClose f) s fun _ => True :=
  Leads.modify ⟨h.publishAndClose (hf _), trivial⟩

theorem typed_spawn (h : s.Typed schema) (task : Task) (htask : task.Typed schema) :
    LeadsTyped schema (Execution.spawn task) s fun _ => True :=
  Leads.modify ⟨h.spawn htask, trivial⟩

end Steps

end GraphQL
