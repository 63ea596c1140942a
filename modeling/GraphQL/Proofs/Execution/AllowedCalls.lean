import GraphQL.Proofs.Execution.Watches
import GraphQL.Proofs.Schema.Validity

/-!
# Executions make allowed calls only

All jobs that run for a built schema complete values of output types and resolve fields of object types: the operation
begins with an object, the schema was checked to give output types to fields, and the runtime types of abstract ones are
objects.  So no execution differs from the one that is watched (`Executor.allowed`).

The schema is not asked about the type of `__typename`, which is that of the built-in scalar `String`.  An input object that
takes its place makes the name of a type a value of an unexpected type (`unexpected_typename`).
-/

namespace GraphQL

open Execution Stage

variable {schema : Schema} {c : ExecutionContext} {s : ExecStage}

/-! ### Children -/

/-- Jobs for output types are run without calls that are not allowed. -/
def WatchesJobs (schema : Schema) (run' run : Job → ExecM Ran) : Prop :=
  ∀ {s : ExecStage} (job : Job), job.Typed schema → s.Typed schema →
    Watches schema (run' job) (run job) s fun ran => ran.Typed schema

/-- Children that are left are jobs for output types. -/
private def TypedLeft (schema : Schema) (out : Except Error (List (Slot Job))) : Prop :=
  ∀ slots, out = .ok slots → Job.TypedSlots schema slots

section Children

variable {run' run : Job → ExecM Ran} (hrun : WatchesJobs schema run' run)
include hrun

theorem watches_runFew (slots : List (Slot Job)) (hslots : Job.TypedSlots schema slots) (h : s.Typed schema) :
    Watches schema (runFew run' slots) (runFew run slots) s (TypedLeft schema) := by
  have hkeep : ∀ {slot : Slot Job} {rest : List (Slot Job)} {s : ExecStage}, s.Typed schema →
      (∀ left, Job.TypedSlots schema left → Job.TypedSlots schema (slot :: left)) →
      (∀ {s : ExecStage}, s.Typed schema → Watches schema (runFew run' rest) (runFew run rest) s (TypedLeft schema)) →
      Watches schema (do return (← runFew run' rest).map (slot :: ·)) (do return (← runFew run rest).map (slot :: ·)) s
        (TypedLeft schema) := by
    intro slot rest s h hslot hrest
    refine Watches.bind (hrest h) fun out s' h' hout => Watches.pure h' ?_
    intro slots' heq
    cases out with
    | error e => exact absurd heq (by simp [Except.map])
    | ok left =>
      obtain rfl := Except.ok.inj heq
      exact hslot left (hout left rfl)
  induction slots generalizing s with
  | nil => exact Watches.pure h fun _ heq => Except.ok.inj heq ▸ trivial
  | cons slot rest ih =>
    cases slot with
    | finished outcome => exact hkeep h (fun _ hleft => hleft) (ih hslots)
    | running job =>
      unfold runFew
      refine Watches.bind (hrun job hslots.1 h) fun ran s₁ h₁ hran => ?_
      cases ran with
      | done outcome =>
        cases outcome with
        | error e =>
          exact Watches.step (Quiet.typed (quiet_noteClosed _) h₁) fun _ s₂ h₂ _ => Watches.pure h₂ fun _ heq => by cases heq
        | ok v => exact hkeep h₁ (fun _ hleft => hleft) (ih hslots.2)
      | waiting job' =>
        refine Watches.bind (ih hslots.2 h₁) fun out s₂ h₂ hout => ?_
        cases out with
        | error e =>
          exact Watches.step (Quiet.typed (quiet_noteClosed _) h₂) fun _ s₃ h₃ _ => Watches.pure h₃ fun _ heq => by cases heq
        | ok left =>
          refine Watches.pure h₂ fun slots' heq => ?_
          obtain rfl := Except.ok.inj heq
          exact ⟨hran, hout left rfl⟩

theorem watches_runMany (order : List Nat) (slots : List (Slot Job)) (hslots : Job.TypedSlots schema slots)
    (h : s.Typed schema) : Watches schema (runMany run' order slots) (runMany run order slots) s (TypedLeft schema) := by
  induction order generalizing s slots with
  | nil => exact Watches.pure h fun _ heq => Except.ok.inj heq ▸ hslots
  | cons i order ih =>
    unfold runMany
    cases hget : slots[i]? with
    | none => exact ih slots hslots h
    | some slot =>
      cases slot with
      | finished outcome => exact ih slots hslots h
      | running job =>
        have hjob := Job.typedSlots_iff.1 hslots job (List.mem_of_getElem? hget)
        refine Watches.bind (hrun job hjob h) fun ran s₁ h₁ hran => ?_
        cases ran with
        | waiting job' => exact ih _ (hslots.set i fun _ heq => Slot.running.inj heq ▸ hran) h₁
        | done outcome =>
          dsimp only
          cases firstError? (slots.set i (.finished outcome)) with
          | none => exact ih _ (hslots.set i fun _ heq => by cases heq) h₁
          | some e =>
            exact Watches.step (Quiet.typed (quiet_noteClosed _) h₁) fun _ s₂ h₂ _ => Watches.pure h₂ fun _ heq => by cases heq

omit hrun in
/-- What children come to is assembled when all of them are finished. -/
private theorem watches_assemble (shape : Shape) {run₁' run₁ : ExecM (Except Error (List (Slot Job)))}
    (h : Watches schema run₁' run₁ s (TypedLeft schema)) :
    Watches schema
      (do match ← run₁' with
        | .error e => return Ran.done (.error e)
        | .ok slots =>
          match slots.mapM Slot.value? with
          | some values => return .done (.ok (shape.assemble values))
          | none => return .waiting (.gather shape true slots))
      (do match ← run₁ with
        | .error e => return Ran.done (.error e)
        | .ok slots =>
          match slots.mapM Slot.value? with
          | some values => return .done (.ok (shape.assemble values))
          | none => return .waiting (.gather shape true slots)) s fun ran => ran.Typed schema := by
  refine Watches.bind h fun out s' h' hout => ?_
  cases out with
  | error e => exact Watches.pure h' trivial
  | ok left =>
    dsimp only
    cases left.mapM Slot.value? with
    | some values => exact Watches.pure h' trivial
    | none => exact Watches.pure h' (hout left rfl)

theorem watches_runChildren (shape : Shape) (started : Bool) (slots : List (Slot Job))
    (hslots : Job.TypedSlots schema slots) (h : s.Typed schema) :
    Watches schema (runChildren run' shape started slots) (runChildren run shape started slots) s fun ran =>
      ran.Typed schema := by
  unfold runChildren
  by_cases hfew : slots.length ≤ fewChildren
  · rw [if_pos hfew, if_pos hfew]
    exact watches_assemble shape (watches_runFew hrun slots hslots h)
  · rw [if_neg hfew, if_neg hfew]
    exact watches_assemble shape (Watches.get_bind (watches_runMany hrun _ slots hslots h))

end Children

/-! ### Streams -/

theorem typed_pollStream (source : ItemStream) (h : s.Typed schema) :
    LeadsTyped schema (pollStream source) s fun _ => True :=
  Quiet.typed (quiet_pollStream source) h

theorem typed_spawnFetcher {itemType : TypeRef} (hitem : itemType.IsOutput schema) (site : Site) (usage : StreamUsage)
    (source : ItemStream) (index : Nat) (h : s.Typed schema) :
    LeadsTyped schema (spawnFetcher itemType site usage source index) s fun _ => True := by
  unfold spawnFetcher
  refine Leads.bind (Leads.modifyGet ?_)
  have h₁ : Stage.Typed schema (s.addHook source.openName.head?).1 := h
  refine Leads.andThen (typed_publish h₁ fun p => .addStream p _ _ _) fun stream s₂ h₂ => ?_
  refine Leads.andThen (typed_publish h₂.1 fun p => .addItems p _ _ _) fun id s₃ h₃ => ?_
  exact typed_spawn h₃.1 (.fetch _) hitem

/-- The items that are taken are completed as values of an output type. -/
theorem typed_takeItems {itemType : TypeRef} (hitem : itemType.IsOutput schema) (site : Site) (usage : Option StreamUsage)
    (count : Nat) (source : ItemStream) (items : List Job) (hitems : ∀ job ∈ items, job.Typed schema) (h : s.Typed schema) :
    LeadsTyped schema (takeItems itemType site usage count source items) s fun out =>
      ∀ job, out = .ok job → job.Typed schema := by
  induction count generalizing s source items with
  | zero => exact Leads.pure ⟨h, fun _ heq => Except.ok.inj heq ▸ ⟨hitem, Job.typedJobs_iff.2 hitems⟩⟩
  | succ count ih =>
    have hgathered : ∀ job, (Except.ok (.gather .list false (items.reverse.map .running)) : Except Error Job) = .ok job →
        job.Typed schema := by
      intro job heq
      obtain rfl := Except.ok.inj heq
      exact Job.typed_gather .list false fun job hjob => hitems job (List.mem_reverse.1 hjob)
    unfold takeItems
    dsimp only
    split
    · exact Leads.andThen (typed_spawnFetcher hitem site _ source _ h) fun _ s' h' => Leads.pure ⟨h'.1, hgathered⟩
    · refine Leads.andThen (typed_pollStream source h) fun polled s' hpolled => ?_
      have h' := hpolled.1
      split
      · exact Leads.pure ⟨h', fun _ heq => Except.ok.inj heq ▸ ⟨hitem, Job.typedJobs_iff.2 hitems⟩⟩
      · exact Leads.andThen (Quiet.typed (quiet_noteEnded _) h') fun _ s'' h'' => Leads.pure ⟨h''.1, hgathered⟩
      · refine Leads.andThen (Quiet.typed (quiet_noteEnded _) h') fun _ s'' h'' => ?_
        exact Leads.andThen (Quiet.typed (quiet_noteClosed _) h''.1) fun _ s₃ h₃ => Leads.pure ⟨h₃.1, fun _ heq => by cases heq⟩
      · refine ih _ _ (fun job hjob => ?_) h'
        rcases List.mem_cons.1 hjob with rfl | hjob
        · exact hitem
        · exact hitems job hjob

/-! ### Jobs -/

/-- Fields that are resolved one after the other. -/
theorem watches_runSerial (hfields : c.schema.OutputFields) {fuel : Nat}
    (ih : WatchesJobs c.schema (Watched.run c fuel) (Job.run c fuel)) (o : ObjectFields) (done : List (String × Json))
    (current : Option (String × Job)) (remaining : GroupedFieldSet)
    (hjob : (Job.serial o done current remaining).Typed c.schema) (h : s.Typed c.schema) :
    Watches c.schema (Watched.run c (fuel + 1) (.serial o done current remaining))
      (Job.run c (fuel + 1) (.serial o done current remaining)) s fun ran => ran.Typed c.schema := by
  unfold Watched.run Job.run
  cases current with
  | none =>
    have ho : c.schema.IsObject o.typeName := hjob
    cases remaining with
    | nil => exact Watches.pure h trivial
    | cons field rest =>
      obtain ⟨key, group⟩ := field
      refine Watches.bind (watches_fieldJob hfields ho key group h) fun job? s₁ h₁ hjob₁ => ?_
      cases job? with
      | none => exact ih (.serial o done none rest) ho h₁
      | some job => exact ih (.serial o done (some (key, job)) rest) ⟨ho, hjob₁ job rfl⟩ h₁
  | some current =>
    obtain ⟨key, job⟩ := current
    refine Watches.bind (ih job hjob.2 h) fun ran s₁ h₁ hran => ?_
    cases ran with
    | waiting job' => exact Watches.pure h₁ ⟨hjob.1, hran⟩
    | done outcome =>
      cases outcome with
      | error e => exact Watches.pure h₁ trivial
      | ok v => exact ih (.serial o (done ++ [(key, v)]) none remaining) hjob.1 h₁

/-- A job for output types is run without calls that are not allowed, and so is what is left of it. -/
theorem watchesJobs_run (hfields : c.schema.OutputFields) (fuel : Nat) :
    WatchesJobs c.schema (Watched.run c fuel) (Job.run c fuel) := by
  induction fuel with
  | zero => exact fun _ _ _ => Watches.failure
  | succ fuel ih =>
    intro s job hjob h
    cases job with
    | serial o done current remaining => exact watches_runSerial hfields ih o done current remaining hjob h
    | failed e => exact Watches.pure h trivial
    | field type site value =>
      refine Watches.bind (ih value hjob h) fun ran s₁ h₁ hran => ?_
      cases ran with
      | waiting value' => exact Watches.pure h₁ hran
      | done outcome =>
        cases outcome with
        | ok v => exact Watches.pure h₁ trivial
        | error e =>
          exact Watches.step (typed_absorb type site e h₁) fun _ s₂ h₂ _ => Watches.pure h₂ trivial
    | complete type site value =>
      refine Watches.bind (watches_completeValue hfields hjob site value h) fun progress s₁ h₁ hprogress => ?_
      cases progress with
      | done outcome => exact Watches.pure h₁ trivial
      | go job => exact ih job hprogress h₁
    | await type site timer outcome =>
      refine Watches.step (Quiet.typed (quiet_pollTimer timer) h) fun timer? s₁ h₁ _ => ?_
      cases timer? with
      | some timer' => exact Watches.pure h₁ hjob
      | none =>
        cases outcome with
        | error e => exact Watches.pure h₁ trivial
        | ok value =>
          exact Watches.step (Quiet.typed (quiet_noteOpened _) h₁) fun _ s₂ h₂ _ => ih (.complete type site value) hjob h₂
    | nonNull info value =>
      refine Watches.bind (ih value hjob h) fun ran s₁ h₁ hran => ?_
      cases ran with
      | waiting value' => exact Watches.pure h₁ hran
      | done outcome =>
        cases outcome with
        | error e => exact Watches.pure h₁ trivial
        | ok v => exact Watches.ite (fun _ => Watches.pure h₁ trivial) fun _ => Watches.pure h₁ trivial
    | gather shape started children => exact watches_runChildren ih shape started children hjob h
    | iterate type site usage source items =>
      refine Watches.step (typed_takeItems hjob.1 site usage _ source items (Job.typedJobs_iff.1 hjob.2) h) ?_
      intro out s₁ h₁ hout
      cases out with
      | error e => exact Watches.pure h₁ trivial
      | ok job' =>
        have hjob' := hout job' rfl
        cases job' with
        | iterate => exact Watches.pure h₁ hjob'
        | _ => exact ih _ hjob' h₁
    | select fields =>
      exact Watches.bind (watches_selectFields hfields hjob h) fun job s₁ h₁ hjob₁ => ih job hjob₁ h₁

/-! ### Tasks -/

/-- A task that is done leaves nothing to run. -/
private theorem typed_none : ∀ task, (none : Option Task) = some task → task.Typed schema :=
  fun _ heq => absurd heq (by simp)

/-- What is done with an item, or at the end, once the hook is retired. -/
private theorem typed_fetched {count : Nat} {f : Fetcher} (hf : f.itemType.IsOutput schema)
    (hfetch : ∀ {s : ExecStage} {f : Fetcher}, f.itemType.IsOutput schema → s.Typed schema →
      LeadsTyped schema (fetchItems count f) s fun task? => ∀ task, task? = some task → task.Typed schema)
    (after : ItemStream) (polled : Polled Resolved) (h : s.Typed schema) :
    LeadsTyped schema (do
      if (← get).publisher.streamHasErrors f.stream then
        Execution.noteClosed polled.openStreams
        publishUnit fun p => p.retireItems f.record
        modify fun s => s.fire f.hook
        return none
      else
        match polled with
        | .item (.ok item) =>
          let path := f.path.index f.index
          spawn (.item f.path f.record (streamedItemJob f.itemType f.group f.info path f.record item))
          let index := f.index + 1
          let next ← publish fun p => p.addItems f.stream (f.path.index index) f.record
          fetchItems count { f with source := after, index := index, record := next }
        | .item (.error e) =>
          publishAndClose fun p => p.filter f.path f.record
          publishAndClose fun p => p.failItems f.record (e.toError.locate f.group f.path)
          return none
        | _ =>
          publishUnit fun p => (p.setEnd f.record).completeItems f.record []
          return none) s fun task? => ∀ task, task? = some task → task.Typed schema := by
  refine Leads.bind (Leads.get ?_)
  split
  · refine Leads.andThen (Quiet.typed (quiet_noteClosed _) h) fun _ s₂ h₂ => ?_
    refine Leads.andThen (typed_publishUnit h₂.1 fun p => .retireItems p _) fun _ s₃ h₃ => ?_
    exact Leads.andThen (Quiet.typed (quiet_fire f.hook) h₃.1) fun _ s₄ h₄ => Leads.pure ⟨h₄.1, typed_none⟩
  · split
    · refine Leads.andThen (typed_spawn h (.item _ _ _) hf) fun _ s₂ h₂ => ?_
      exact Leads.andThen (typed_publish h₂.1 fun p => .addItems p _ _ _) fun next s₃ h₃ => hfetch hf h₃.1
    · refine Leads.andThen (typed_publishAndClose h fun p => .filter p _ _) fun _ s₂ h₂ => ?_
      exact Leads.andThen (typed_publishAndClose h₂.1 fun p => .failItems p _ _) fun _ s₃ h₃ => Leads.pure ⟨h₃.1, typed_none⟩
    · refine Leads.andThen (typed_publishUnit h fun p => ?_) fun _ s₂ h₂ => Leads.pure ⟨h₂.1, typed_none⟩
      exact .trans (.modifyRecord p _ _) (.completeItems _ _ _)

/-- The items that are fetched are completed as values of an output type. -/
theorem typed_fetchItems (count : Nat) {f : Fetcher} (hf : f.itemType.IsOutput schema) (h : s.Typed schema) :
    LeadsTyped schema (fetchItems count f) s fun task? => ∀ task, task? = some task → task.Typed schema := by
  induction count generalizing s f with
  | zero => exact Leads.pure ⟨h, fun _ heq => Option.some.inj heq ▸ hf⟩
  | succ count ih =>
    unfold fetchItems
    refine Leads.andThen (typed_pollStream f.source h) fun polled s₁ hpolled => ?_
    have h₁ := hpolled.1
    obtain ⟨after, polled⟩ := polled
    dsimp only
    split
    · exact Leads.pure ⟨h₁, fun _ heq => Option.some.inj heq ▸ hf⟩
    · split
      · exact Leads.andThen (Quiet.typed (quiet_retire f.hook) h₁) fun _ s₂ h₂ =>
          typed_fetched hf (fun hf h => ih hf h) after polled h₂.1
      · exact typed_fetched hf (fun hf h => ih hf h) after polled h₁

theorem watches_task (hfields : c.schema.OutputFields) (fuel : Nat) {task : Task} (htask : task.Typed c.schema)
    (h : s.Typed c.schema) :
    Watches c.schema (Watched.runTask c fuel task) (task.run c fuel) s fun task? =>
      ∀ task, task? = some task → task.Typed c.schema := by
  cases task with
  | fieldSet path id data =>
    refine Watches.bind (watchesJobs_run hfields fuel data htask h) fun ran s₁ h₁ hran => ?_
    cases ran with
    | waiting data' => exact Watches.pure h₁ fun _ heq => Option.some.inj heq ▸ hran
    | done outcome =>
      cases outcome with
      | ok v =>
        exact Watches.step (typed_publishUnit h₁ fun p => .completeFieldSet p _ _) fun _ s₂ h₂ _ => Watches.pure h₂ typed_none
      | error e =>
        refine Watches.step (typed_publishAndClose h₁ fun p => .filter p _ _) fun _ s₂ h₂ _ => ?_
        exact Watches.step (typed_publishUnit h₂ fun p => .failFieldSet p _ _) fun _ s₃ h₃ _ => Watches.pure h₃ typed_none
  | item listPath id value =>
    refine Watches.bind (watchesJobs_run hfields fuel value htask h) fun ran s₁ h₁ hran => ?_
    cases ran with
    | waiting value' => exact Watches.pure h₁ fun _ heq => Option.some.inj heq ▸ hran
    | done outcome =>
      cases outcome with
      | ok v =>
        exact Watches.step (typed_publishUnit h₁ fun p => .completeItems p _ _) fun _ s₂ h₂ _ => Watches.pure h₂ typed_none
      | error e =>
        refine Watches.step (typed_publishAndClose h₁ fun p => .filter p _ _) fun _ s₂ h₂ _ => ?_
        exact Watches.step (typed_publishAndClose h₂ fun p => .failItems p _ _) fun _ s₃ h₃ _ => Watches.pure h₃ typed_none
  | fetch f => exact Watches.same (typed_fetchItems _ htask h)

/-- A task that is taken is one for output types. -/
theorem typed_takeReady (h : s.Typed schema) :
    LeadsTyped schema takeReady s fun task? => ∀ task, task? = some task → task.Typed schema :=
  leads_takeReady (fun _ => ⟨h, typed_none⟩) fun _ _ hready =>
    ⟨(h.withReady hready).2, fun _ heq => Option.some.inj heq ▸ (h.withReady hready).1⟩

section Tasks

variable (hfields : c.schema.OutputFields)
include hfields

theorem watches_runOne (fuel : Nat) {task : Task} (htask : task.Typed c.schema) (h : s.Typed c.schema) :
    Watches c.schema (runOne (Watched.runTask c fuel) task) (runOne (Task.run c fuel) task) s fun _ => True := by
  unfold runOne
  refine Watches.bind (watches_task hfields fuel htask h) fun task? s₁ h₁ htask₁ => ?_
  cases task? with
  | none => exact Watches.pure h₁ trivial
  | some task' =>
    refine Watches.modify_bind (Watches.pure (fun t ht => ?_) trivial)
    have hmem : t ∈ s₁.work.ready ++ (s₁.work.waiting ++ [task']) ++ s₁.publisher.inbox := ht
    have hcases : t = task' ∨ t ∈ s₁.tasks := by
      unfold tasks
      simp only [List.mem_append, List.mem_singleton] at hmem ⊢
      tauto
    rcases hcases with rfl | ht
    · exact htask₁ t rfl
    · exact h₁ t ht

theorem watches_runReady (fuel count : Nat) (h : s.Typed c.schema) :
    Watches c.schema (runReady (Watched.runTask c fuel) count) (runReady (Task.run c fuel) count) s fun _ => True := by
  induction count generalizing s with
  | zero => exact Watches.pure h trivial
  | succ count ih =>
    unfold runReady
    refine Watches.step (typed_takeReady h) fun task? s₁ h₁ htask => ?_
    cases task? with
    | none => exact Watches.pure h₁ trivial
    | some task => exact Watches.bind (watches_runOne hfields fuel (htask task rfl) h₁) fun _ s₂ h₂ _ => ih h₂

theorem watches_runUntilDone (fuel count : Nat) (h : s.Typed c.schema) :
    Watches c.schema (runUntilDone (Watched.runTask c fuel) count) (runUntilDone (Task.run c fuel) count) s
      fun _ => True := by
  induction count generalizing s with
  | zero => exact Watches.pure h trivial
  | succ count ih =>
    unfold runUntilDone
    refine Watches.step (typed_takeReady h) fun task? s₁ h₁ htask => ?_
    cases task? with
    | none => exact Watches.pure h₁ trivial
    | some task =>
      refine Watches.bind (watches_runOne hfields fuel (htask task rfl) h₁) fun done s₂ h₂ _ => ?_
      exact Watches.ite (fun _ => Watches.pure h₂ trivial) fun _ => ih h₂

end Tasks

/-! ### Up to the answer -/

section Answers

variable (hfields : c.schema.OutputFields) (hroot : c.schema.IsObject c.rootType)
include hfields

include hroot in
theorem watches_beginOperation (h : s.Typed c.schema) :
    Watches c.schema (Watched.beginOperation c) (beginOperation c) s fun progress => progress.Typed c.schema := by
  unfold Watched.beginOperation beginOperation
  refine Watches.get_bind ?_
  dsimp only
  refine Watches.set_bind ?_
  have h₁ : Stage.Typed c.schema { s with memory := { s.memory with collector := (s.memory.collector.collectFields
      c.collection c.rootType c.operation.selectionSet.selections).2 } } := h
  cases (s.memory.collector.collectFields c.collection c.rootType c.operation.selectionSet.selections).1 with
  | error e => exact Watches.pure h₁ trivial
  | ok collected =>
    refine Watches.step (typed_addFragments .root .initial collected.newUsages [] h₁) fun deferMap s₂ h₂ _ => ?_
    refine Watches.step (typed_addFieldSets .root deferMap collected.newSets h₂) fun sets s₃ h₃ _ => ?_
    let o : ObjectFields := ⟨c.rootType, c.rootValue, .root, collected.fields, .initial, deferMap⟩
    cases c.operation.kind with
    | mutation => exact watches_goOn hfields (o := o) hroot sets (Watches.pure h₃ hroot)
    | query => exact watches_goOn hfields (o := o) hroot sets (watches_selectFields hfields hroot h₃)
    | subscription => exact watches_goOn hfields (o := o) hroot sets (watches_selectFields hfields hroot h₃)

theorem watches_runInitial (fuel rounds : Nat) (job : Job) (hjob : job.Typed c.schema) (h : s.Typed c.schema) :
    Watches c.schema (Watched.runInitial c fuel rounds job) (runInitial c fuel rounds job) s fun ran =>
      ran.Typed c.schema := by
  induction rounds generalizing s job with
  | zero => exact Watches.failure
  | succ rounds ih =>
    unfold Watched.runInitial runInitial
    refine Watches.bind (watchesJobs_run hfields fuel job hjob h) fun ran s₁ h₁ hran => ?_
    cases ran with
    | done outcome => exact Watches.pure h₁ trivial
    | waiting job' =>
      refine Watches.get_bind (Watches.bind (watches_runReady hfields fuel _ h₁) fun _ s₂ h₂ _ => ?_)
      refine Watches.get_bind (Watches.ite (fun _ => Watches.pure h₂ hran) fun _ => ?_)
      exact Watches.modify_bind (ih job' hran h₂.takeInbox)

omit hfields in
theorem typed_answer (outcome : Except Error Json) (h : s.Typed schema) :
    LeadsTyped schema (answer outcome) s fun _ => True := by
  refine Leads.modifyGet ⟨?_, trivial⟩
  cases outcome with
  | error e => exact (h.dropTaken.withPublisher (.takeErrors _)).closeInbox
  | ok data =>
    have hpublished := h.withPublisher (.trans (.publishChildren s.publisher .initial) (.takeErrors _))
    dsimp only [answerData]
    split
    · exact hpublished
    · exact hpublished.closeInbox.dropTaken

omit hfields in
theorem typed_dropInitial (job : Job) (h : s.Typed schema) : LeadsTyped schema (dropInitial job) s fun _ => True :=
  Leads.modify ⟨(h.beside (noteClosed_beside s job.openStreams)).dropTaken.closeInbox, trivial⟩

theorem watches_awaitAnswer (fuel rounds : Nat) (job : Job) (hjob : job.Typed c.schema) (h : s.Typed c.schema) :
    Watches c.schema (Watched.awaitAnswer c fuel rounds job) (awaitAnswer c fuel rounds job) s fun _ => True := by
  induction rounds generalizing s job with
  | zero => exact Watches.failure
  | succ rounds ih =>
    unfold Watched.awaitAnswer awaitAnswer
    refine Watches.bind (watches_runInitial hfields fuel fuel job hjob h) fun ran s₁ h₁ hran => ?_
    cases ran with
    | done outcome => exact Watches.step (typed_answer outcome h₁) fun _ s₂ h₂ _ => Watches.pure h₂ trivial
    | waiting job' =>
      refine Watches.get_bind ?_
      cases s₁.nextTime? job'.deadlines with
      | some time => exact Watches.modify_bind (ih job' hran (h₁.advanceTo time))
      | none => exact Watches.step (typed_dropInitial job' h₁) fun _ s₂ h₂ _ => Watches.pure h₂ trivial

omit hfields in
theorem ExecutionContext.typed_stage (c : ExecutionContext) : c.stage.Typed schema :=
  fun _ htask => absurd htask (by simp [Stage.tasks, ExecutionContext.stage])

include hroot in
theorem watches_respondWith (fuel : Nat) :
    Watches c.schema (Watched.respondWith c fuel) (c.respondWith fuel) c.stage fun _ => True := by
  refine Watches.bind (watches_beginOperation hfields hroot c.typed_stage) fun progress s₁ h₁ hprogress => ?_
  cases progress with
  | done outcome => exact Watches.step (typed_answer outcome h₁) fun _ s₂ h₂ _ => Watches.pure h₂ trivial
  | go job => exact watches_awaitAnswer hfields fuel fuel job hprogress h₁

omit hfields in
/-- The response that a run comes to at once. -/
private theorem typed_respondAtOnce {ran : Ran} (h : s.Typed c.schema) : LeadsTyped c.schema (match ran with
    | .waiting job => do
      dropInitial job
      return SyncError.notFinished.toResponse
    | .done outcome => do
      match ← answer outcome with
      | .single response => return response
      | .incremental _ =>
        modify Stage.cancel
        return SyncError.severalResults.toResponse) s fun _ => True := by
  cases ran with
  | waiting job => exact Leads.andThen (typed_dropInitial job h) fun _ s₁ h₁ => Leads.pure h₁
  | done outcome =>
    refine Leads.andThen (typed_answer outcome h) fun a s₁ h₁ => ?_
    cases a with
    | single response => exact Leads.pure h₁
    | incremental initial => exact Leads.bind (Leads.modify (Leads.pure ⟨h₁.1.cancel, trivial⟩))

include hroot in
theorem watches_respondNow : Watches c.schema (Watched.respondNow c) c.respondNow c.stage fun _ => True := by
  refine Watches.bind (watches_beginOperation hfields hroot c.typed_stage) fun progress s₁ h₁ hprogress => ?_
  cases progress with
  | done outcome =>
    exact Watches.step (P := fun _ => True) (Leads.pure ⟨h₁, trivial⟩) fun _ _ h₂ _ => ⟨rfl, typed_respondAtOnce h₂⟩
  | go job =>
    exact Watches.bind (watches_runInitial hfields _ _ job hprogress h₁) fun _ _ h₂ _ => ⟨rfl, typed_respondAtOnce h₂⟩

/-! ### Results -/

theorem watches_pullOpen (fuel rounds : Nat) (h : s.Typed c.schema) :
    Watches c.schema (pullOpen (Watched.runTask c fuel) rounds) (pullOpen (Task.run c fuel) rounds) s fun _ => True := by
  induction rounds generalizing s with
  | zero => exact Watches.failure
  | succ rounds ih =>
    have hlook : s.takeInbox.look.Typed c.schema := h.takeInbox.withPublisher (.nextResult? _)
    have hfinish : ∀ pulled : Pulled, Watches c.schema (do modify finish; return pulled) (do modify finish; return pulled)
        s.takeInbox.look fun _ => True :=
      fun _ => Watches.modify_bind (Watches.pure (Typed.finish _) trivial)
    unfold pullOpen
    refine Watches.modify_bind (Watches.get_bind ?_)
    dsimp only
    refine Watches.set_bind ?_
    cases s.takeInbox.publisher.nextResult?.2 with
    | some r => exact Watches.ite (fun _ => hfinish _) fun _ => Watches.pure hlook trivial
    | none =>
      refine Watches.ite (fun _ => hfinish _) fun _ => Watches.ite (fun _ => ?_) fun _ => ?_
      · exact Watches.ite (fun _ => ih hlook) fun _ => hfinish _
      · refine Watches.bind (watches_runUntilDone hfields fuel _ hlook) fun done s₁ h₁ _ => ?_
        refine Watches.ite (fun _ => ih h₁) fun _ => Watches.get_bind ?_
        exact Watches.ite (fun _ => ih h₁) fun _ => Watches.pure h₁ trivial

theorem watches_pull (fuel rounds : Nat) (h : s.Typed c.schema) :
    Watches c.schema (pull (Watched.runTask c fuel) rounds) (pull (Task.run c fuel) rounds) s fun _ => True :=
  Watches.get_bind (Watches.ite (fun _ => Watches.pure h trivial) fun _ => watches_pullOpen hfields fuel rounds h)

/-- Only tasks for output types are there while results are consumed. -/
theorem Consumes.typed {s₀ : ExecStage} (h : Consumes c s₀ s) (h₀ : s₀.Typed c.schema) : s.Typed c.schema := by
  induction h with
  | start => exact h₀
  | pull _ hpull ih => exact ((watches_pull hfields _ _ ih).2 _ _ hpull).1
  | advance _ time ih => exact ih.advanceTo time
  | cancel _ ih => exact ih.cancel

end Answers

/-! ### Built schemas -/

/-- The fields of a built schema have output types, unless an input object has taken the place of `String`. -/
theorem SchemaDraft.outputFields {calls : List SchemaDraft.Call} (h : (ofCalls calls).build = .ok schema)
    (hstring : schema.typeKind? "String" ≠ some .inputObject) : schema.OutputFields := by
  intro parent name d hd
  by_cases hname : name = "__typename"
  · unfold Schema.field? at hd
    rw [if_pos hname] at hd
    obtain rfl := Option.some.inj hd
    have hsome : (schema.typeKind? "String").isSome = true := by
      obtain ⟨query, -, rfl⟩ := SchemaDraft.eq_of_build h
      unfold Schema.typeKind?
      rw [Option.isSome_map]
      exact isSome_get?_builtin calls (by decide)
    show (schema.typeKind? "String").any TypeKind.isOutput = true
    cases hkind : schema.typeKind? "String" with
    | none =>
      rw [hkind] at hsome
      exact absurd hsome (by simp)
    | some kind =>
      cases kind with
      | inputObject => exact absurd hkind hstring
      | _ => rfl
  · exact isOutput_field? h hd hname

/-- What is executed has the schema of the executor, and begins with a root type of it. -/
theorem Executor.root_of_prepare {e : Executor} {r : Request} (h : e.prepare r = .ok c) :
    c.schema = e.schema ∧ e.schema.rootName? c.operation.kind = some c.rootType := by
  unfold Executor.prepare at h
  cases hoperation : r.document.select r.operationName with
  | error err =>
    rw [hoperation] at h
    exact absurd h (by simp [Except.mapError, bind, Except.bind])
  | ok operation =>
    rw [hoperation] at h
    dsimp only [Except.mapError, bind, Except.bind] at h
    split at h
    · exact absurd h (by simp)
    · rename_i rootType hroot
      split at h
      · exact absurd h (by simp)
      · obtain rfl := Except.ok.inj h
        exact ⟨rfl, hroot⟩

/-- Executions make allowed calls only.  For every schema that was built, unless an input object has taken the place of the
scalar `String` in it, whatever the resolvers are and whatever is requested, the execution that is watched does the same as
the execution: up to the answer, without letting time pass, and whenever a consumer pulls a result after the answer. -/
theorem Executor.allowed {calls : List SchemaDraft.Call} {e : Executor}
    (hbuild : (SchemaDraft.ofCalls calls).build = .ok e.schema) (hstring : e.schema.typeKind? "String" ≠ some .inputObject)
    {r : Request} (hprepare : e.prepare r = .ok c) :
    (∀ fuel, (Watched.respondWith c fuel).run c.stage = (c.respondWith fuel).run c.stage) ∧
      (Watched.respondNow c).run c.stage = c.respondNow.run c.stage ∧
      ∀ fuel a? s₀ s, (c.respondWith fuel).run c.stage = some (a?, s₀) → Consumes c s₀ s → ∀ fuel rounds,
        (pull (Watched.runTask c fuel) rounds).run s = (pull (Task.run c fuel) rounds).run s := by
  obtain ⟨hschema, hname⟩ := Executor.root_of_prepare hprepare
  rw [← hschema] at hbuild hstring hname
  have hfields := SchemaDraft.outputFields hbuild hstring
  have hroot : c.schema.IsObject c.rootType := SchemaDraft.typeKind?_rootName? hbuild hname
  refine ⟨fun fuel => (watches_respondWith hfields hroot fuel).1, (watches_respondNow hfields hroot).1, ?_⟩
  intro fuel a? s₀ s hrespond hconsumes fuel' rounds
  have h₀ := ((watches_respondWith hfields hroot fuel).2 _ _ hrespond).1
  exact (watches_pull hfields fuel' rounds (hconsumes.typed hfields h₀)).1

/-- A draft of types is made by calls, the query root first. -/
theorem SchemaDraft.ofTypes_eq_ofCalls (types : List TypeDef) :
    ofTypes types = ofCalls (.root .query "Query" :: types.map .type) := by
  unfold ofTypes ofCalls
  rw [List.foldl_cons, List.foldl_map]
  rfl

/-- Pets, of which there is one kind. -/
def petTypes : List TypeDef :=
  [.interface { name := "Pet", fields := [("name", { name := "name", type := .nonNull (.named "String") })] },
    .object { name := "Cat", fields := [("name", { name := "name", type := .nonNull (.named "String") })],
              implements := ["Pet"] },
    .ofFields "Query" [("pets", .list (.named "Pet"))]]

/-- A deferred list of pets.  The first one says that it is a cat, and its name comes later than later; the second one is of
no known type. -/
def deferredPets : ExecutionContext :=
  .ofSelections petTypes
    [("Cat.name", { resolve := fun _ => .ok (.later none 0 (.ok (.later none 0 (.ok (.value (.string "Tom")))))) })]
    (.object [("pets", .array [.object [("__typename", .string "Cat")], .string "Rex"])])
    [.deferred [.named "pets" [.named "__typename", .named "name"]]]

private theorem deferredPets_pulled : (((deferredPets.respondWith 20).run deferredPets.stage).bind fun p =>
    match p.1 with
    | some (.incremental _) => ((pull (Task.run deferredPets 20) 10).run p.2).map fun q =>
      match q.1 with
      | .result r => some (r.incremental.map fun | .defer e => e.data | .stream _ => .null)
      | _ => none
    | _ => none) = some (some [.object [("pets",
      .array [.object [("__typename", .string "Cat"), ("name", .string "Tom")], .null])]]) := by
  decide +kernel

/-- The execution of `deferredPets` that is watched gives the list, with null for the second pet. -/
theorem deferredPets_allowed : ∃ schema initial s₀ r s,
    (SchemaDraft.ofCalls (.root .query "Query" :: petTypes.map .type)).build = .ok schema ∧
      schema.typeKind? "String" ≠ some .inputObject ∧
      Executor.prepare { schema := schema, resolvers := deferredPets.resolvers }
        ⟨deferredPets.document, none, [], deferredPets.rootValue, []⟩ = .ok deferredPets ∧
      (Watched.respondWith deferredPets 20).run deferredPets.stage = some (some (.incremental initial), s₀) ∧
      (pull (Watched.runTask deferredPets 20) 10).run s₀ = some (.result r, s) ∧
      r.incremental.map (fun | .defer e => e.data | .stream _ => .null) =
        [.object [("pets", .array [.object [("__typename", .string "Cat"), ("name", .string "Tom")], .null])]] := by
  obtain ⟨schema, hbuild⟩ : ∃ schema, (SchemaDraft.ofTypes petTypes).build = .ok schema := ⟨_, rfl⟩
  have hprepare := ExecutionContext.prepare_ofSelections hbuild deferredPets.resolvers.resolvers deferredPets.rootValue
    deferredPets.operation.selectionSet.selections
  have hstring : schema.typeKind? "String" ≠ some .inputObject := by
    obtain ⟨query, -, rfl⟩ := SchemaDraft.eq_of_build hbuild
    show (Dict.get? (SchemaDraft.ofTypes petTypes).types "String").map TypeDef.kind ≠ some .inputObject
    decide
  rw [SchemaDraft.ofTypes_eq_ofCalls] at hbuild
  obtain ⟨hrespond, -, hpull⟩ := Executor.allowed (e := { schema := schema, resolvers := deferredPets.resolvers })
    hbuild hstring hprepare
  obtain ⟨⟨a?, s₀⟩, hanswer, hrun⟩ := Option.bind_eq_some_iff.1 deferredPets_pulled
  dsimp only at hrun
  split at hrun
  · rename_i initial
    obtain ⟨⟨pulled, s⟩, hpulled, hdata⟩ := Option.map_eq_some_iff.1 hrun
    dsimp only at hdata
    split at hdata
    · rename_i r
      exact ⟨schema, initial, s₀, r, s, hbuild, hstring, hprepare, (hrespond 20).trans hanswer,
        (hpull 20 _ s₀ s₀ hanswer .start 20 10).trans hpulled, Option.some.inj hdata⟩
    · exact absurd hdata (by simp)
  · exact absurd hrun (by simp)

/-- An input object that takes the place of the scalar `String`. -/
def stringInput : List TypeDef :=
  [.inputObject { name := "String", fields := [("a", { name := "a", type := .named "Int" })] },
    .ofFields "Query" [("n", .named "Int")]]

/-- The name of the root type is asked for, and a number. -/
def namelessRoot : ExecutionContext :=
  .ofSelections stringInput [] (.object [("n", .ofInt 1)]) [.named "__typename", .named "n"]

private theorem messages_namelessRoot : ((namelessRoot.respondWith 10).run namelessRoot.stage).map (fun p =>
    match p.1 with
    | some (.single response) => response.errors.map Error.message
    | _ => []) = some [(CompletionError.unexpectedOutputType "String").message] := by
  decide +kernel

/-- The schema can be built, but the name of a type is a value of an unexpected type: the execution is answered with the
error, and the one that is watched has no outcome. -/
theorem unexpected_typename : ∃ schema response s,
    (SchemaDraft.ofCalls (.root .query "Query" :: stringInput.map .type)).build = .ok schema ∧
      Executor.prepare { schema := schema, resolvers := namelessRoot.resolvers }
        ⟨namelessRoot.document, none, [], namelessRoot.rootValue, []⟩ = .ok namelessRoot ∧
      (namelessRoot.respondWith 10).run namelessRoot.stage = some (some (.single response), s) ∧
      response.errors.map Error.message = [(CompletionError.unexpectedOutputType "String").message] ∧
      (Watched.respondWith namelessRoot 10).run namelessRoot.stage = none := by
  obtain ⟨schema, hbuild⟩ : ∃ schema, (SchemaDraft.ofTypes stringInput).build = .ok schema := ⟨_, rfl⟩
  have hprepare := ExecutionContext.prepare_ofSelections hbuild namelessRoot.resolvers.resolvers namelessRoot.rootValue
    namelessRoot.operation.selectionSet.selections
  have hwatched : ((Watched.respondWith namelessRoot 10).run namelessRoot.stage).isNone = true := by decide +kernel
  obtain ⟨⟨a?, s⟩, hanswer, herrors⟩ := Option.map_eq_some_iff.1 messages_namelessRoot
  dsimp only at herrors
  split at herrors
  · rename_i response
    rw [SchemaDraft.ofTypes_eq_ofCalls] at hbuild
    exact ⟨schema, response, s, hbuild, hprepare, hanswer, herrors, Option.isNone_iff_eq_none.1 hwatched⟩
  · exact absurd herrors (by simp)

end GraphQL
