import GraphQL.Proofs.Release.Completion

/-!
# Running jobs passes streams on

A job that is run is given the streams that it holds, and those that it holds when it waits again are what is left of them.
Children that are dropped are closed, and a stream that is over is let go of when its end is noted.  A task that is done
holds nothing, and if it has fetched items it leaves its hook disarmed.
-/

namespace GraphQL

open Execution Stage

variable {s : ExecStage} {names : List String} {running : List (StreamId × HookId)}

/-- The names of the streams that are open in what a job came to. -/
def Ran.openStreams : Ran → List String
  | .done _ => []
  | .waiting job => job.openStreams

/-- The names of the streams that are open in a child. -/
def Slot.openStreams : Slot Job → List String
  | .running job => job.openStreams
  | .finished _ => []

/-- The names of the streams that are open in children, if none of them failed. -/
private def openInSlots : Except Error (List (Slot Job)) → List String
  | .ok slots => Job.openStreamsOfSlots slots
  | .error _ => []

/-- The names of the streams that are open in a job, if there is one. -/
private def openInJob : Except Error Job → List String
  | .ok job => job.openStreams
  | .error _ => []

/-! ### Children -/

theorem Job.openStreamsOfSlots_eq_flatMap (slots : List (Slot Job)) :
    openStreamsOfSlots slots = slots.flatMap Slot.openStreams := by
  induction slots with
  | nil => rfl
  | cons slot rest ih =>
    cases slot with
    | running job => exact congrArg (job.openStreams ++ ·) ih
    | finished out => exact ih

/-- Another child in the place of one. -/
theorem Job.openStreamsOfSlots_set {slots : List (Slot Job)} {i : Nat} (hi : i < slots.length) :
    ∃ others, ∀ slot, (openStreamsOfSlots (slots.set i slot)).Perm (Slot.openStreams slot ++ others) := by
  refine ⟨(slots.take i).flatMap Slot.openStreams ++ (slots.drop (i + 1)).flatMap Slot.openStreams, fun slot => ?_⟩
  rw [openStreamsOfSlots_eq_flatMap, List.set_eq_take_append_cons_drop, if_pos hi, List.flatMap_append, List.flatMap_cons]
  exact List.perm_append_comm_assoc _ _ _

/-- A job that is run is given its streams, and holds those that it did not let go of. -/
def PassesOn (run : Job → ExecM Ran) : Prop :=
  ∀ {running : List (StreamId × HookId)} {names : List String} {s : ExecStage} (job : Job),
    s.Custody (job.openStreams ++ names) running →
      Leads (run job) s fun ran s' => s'.Custody (ran.openStreams ++ names) running

variable {run : Job → ExecM Ran}

theorem leads_runFew (hrun : PassesOn run) (slots : List (Slot Job))
    (h : s.Custody (Job.openStreamsOfSlots slots ++ names) running) :
    Leads (runFew run slots) s fun out s' => s'.Custody (openInSlots out ++ names) running := by
  induction slots generalizing s names with
  | nil => exact Leads.pure h
  | cons slot rest ih =>
    cases slot with
    | finished outcome =>
      refine Leads.andThen (ih h) fun out s' h' => Leads.pure ?_
      cases out <;> exact h'
    | running job =>
      have h : s.Custody (job.openStreams ++ Job.openStreamsOfSlots rest ++ names) running := h
      rw [List.append_assoc] at h
      refine Leads.andThen (hrun job h) fun ran s' h' => ?_
      cases ran with
      | done outcome =>
        cases outcome with
        | error e => exact Leads.andThen (leads_noteClosed h') fun _ s'' h'' => Leads.pure h''
        | ok v =>
          refine Leads.andThen (ih h') fun out s'' h'' => Leads.pure ?_
          cases out <;> exact h''
      | waiting job' =>
        refine Leads.andThen (ih (h'.perm (List.perm_append_comm_assoc _ _ _))) fun out s'' h'' => ?_
        cases out with
        | ok rest' =>
          refine Leads.pure (h''.perm ?_)
          show (_ ++ (job'.openStreams ++ names)).Perm (job'.openStreams ++ Job.openStreamsOfSlots rest' ++ names)
          rw [List.append_assoc]
          exact List.perm_append_comm_assoc _ _ _
        | error e => exact Leads.andThen (leads_noteClosed h'') fun _ s₃ h₃ => Leads.pure h₃

theorem leads_runMany (hrun : PassesOn run) (order : List Nat) (slots : List (Slot Job))
    (h : s.Custody (Job.openStreamsOfSlots slots ++ names) running) :
    Leads (runMany run order slots) s fun out s' => s'.Custody (openInSlots out ++ names) running := by
  induction order generalizing s slots with
  | nil => exact Leads.pure h
  | cons i order ih =>
    unfold runMany
    split
    · rename_i job hslot
      obtain ⟨hi, hget⟩ := List.getElem?_eq_some_iff.1 hslot
      obtain ⟨others, hset⟩ := Job.openStreamsOfSlots_set hi
      have hslots : (Job.openStreamsOfSlots slots).Perm (job.openStreams ++ others) := by
        have hsame := hset slots[i]
        rwa [List.set_getElem_self, hget] at hsame
      have h := h.perm (hslots.append_right names)
      rw [List.append_assoc] at h
      refine Leads.andThen (hrun job h) fun ran s' h' => ?_
      rw [← List.append_assoc] at h'
      cases ran with
      | waiting job' => exact ih _ (h'.perm ((hset (.running job')).symm.append_right names))
      | done outcome =>
        have h' := h'.perm ((hset (.finished outcome)).symm.append_right names)
        dsimp only
        split
        · exact ih _ h'
        · exact Leads.andThen (leads_noteClosed h') fun _ s'' h'' => Leads.pure h''
    · exact ih slots h

/-- No streams are open in children that have their values. -/
theorem Job.openStreamsOfSlots_of_value? {slots : List (Slot Job)} {values : List Json}
    (hvalues : slots.mapM Slot.value? = some values) : openStreamsOfSlots slots = [] := by
  induction slots generalizing values with
  | nil => rfl
  | cons slot rest ih =>
    rw [List.mapM_cons] at hvalues
    obtain ⟨v, hv, hvalues⟩ := Option.bind_eq_some_iff.1 hvalues
    obtain ⟨rest', hrest, -⟩ := Option.bind_eq_some_iff.1 hvalues
    cases slot with
    | running job => exact absurd hv (by simp [Slot.value?])
    | finished out => exact ih hrest

/-- What is made of children that were run. -/
theorem leads_assemble (shape : Shape) (out : Except Error (List (Slot Job)))
    (h : s.Custody (openInSlots out ++ names) running) :
    Leads (match out with
      | .error e => return Ran.done (.error e)
      | .ok slots =>
        match slots.mapM Slot.value? with
        | some values => return .done (.ok (shape.assemble values))
        | none => return .waiting (.gather shape true slots)) s fun ran s' =>
      s'.Custody (ran.openStreams ++ names) running := by
  cases out with
  | error e => exact Leads.pure h
  | ok slots =>
    dsimp only
    split
    · rename_i values hvalues
      rw [openInSlots, Job.openStreamsOfSlots_of_value? hvalues] at h
      exact Leads.pure h
    · exact Leads.pure h

theorem leads_runChildren (hrun : PassesOn run) (shape : Shape) (started : Bool) (slots : List (Slot Job))
    (h : s.Custody (Job.openStreamsOfSlots slots ++ names) running) :
    Leads (runChildren run shape started slots) s fun ran s' => s'.Custody (ran.openStreams ++ names) running := by
  unfold runChildren
  split
  · exact Leads.andThen (leads_runFew hrun slots h) fun out _ => leads_assemble shape out
  · exact Leads.bind (Leads.get (Leads.andThen (leads_runMany hrun _ slots h) fun out _ => leads_assemble shape out))

/-! ### Streams -/

/-- What a stream is after it was asked for an item: it is over after its end and after an error, and otherwise as open as
it was before. -/
def ItemStreamOf.Gives (source after : ItemStream) : Polled Resolved → Prop
  | .waiting | .item (.ok _) => after.finished = false ∧ after.openName = source.openName
  | .ended | .item (.error _) => after.finished = true

theorem ItemStreamOf.gives_poll (source : ItemStream) (s : ExecStage) :
    source.Gives (source.poll Resolved.isError s).2.1 (source.poll Resolved.isError s).2.2 ∧
      ∀ names running, s.Custody names running → (source.poll Resolved.isError s).1.Custody names running := by
  have hadvance : ∀ (steps : List (StreamStep Resolved)) (timer : Option Timer) (s : ExecStage), source.finished = false →
      source.Gives (source.advance Resolved.isError s timer steps).2.1 (source.advance Resolved.isError s timer steps).2.2 ∧
        ∀ names running, s.Custody names running →
          (source.advance Resolved.isError s timer steps).1.Custody names running := by
    intro steps
    induction steps with
    | nil =>
      intro timer s hopen
      unfold advance
      split
      · exact ⟨⟨hopen, rfl⟩, fun _ _ h => h⟩
      · exact ⟨rfl, fun _ _ h => h⟩
    | cons step rest ih =>
      intro timer s hopen
      cases step with
      | item outcome =>
        unfold advance
        refine ⟨?_, fun _ _ h => h⟩
        cases outcome with
        | error e => rfl
        | ok item => exact ⟨hopen, rfl⟩
      | wait ticks =>
        unfold advance
        have hpolled := fun names running (h : s.Custody names running) => h.pollTimer (timer.getD (.fresh ticks))
        split
        · rename_i s' heq
          rw [heq] at hpolled
          obtain ⟨hgives, hcustody⟩ := ih none s' hopen
          exact ⟨hgives, fun names running h => hcustody names running (hpolled names running h)⟩
        · rename_i s' timer' heq
          rw [heq] at hpolled
          exact ⟨⟨hopen, rfl⟩, hpolled⟩
  unfold poll
  split
  · rename_i hfinished
    exact ⟨hfinished, fun _ _ h => h⟩
  · rename_i hopen
    exact hadvance source.steps source.timer s (by simpa using hopen)

/-- The streams that are open in an item that comes from a stream were obtained with it. -/
theorem leads_pollStream (source : ItemStream) (h : s.Custody names running) :
    Leads (pollStream source) s fun polled s' =>
      s'.Custody (polled.2.openStreams ++ names) running ∧ source.Gives polled.1 polled.2 := by
  obtain ⟨hgives, hcustody⟩ := source.gives_poll s
  exact Leads.bind (Leads.get (Leads.bind (Leads.set (Leads.pure ⟨(hcustody names running h).noteOpened _, hgives⟩))))

theorem Job.openStreamsOfJobs_eq_flatMap (jobs : List Job) : openStreamsOfJobs jobs = jobs.flatMap Job.openStreams := by
  induction jobs with
  | nil => rfl
  | cons job rest ih => exact congrArg (job.openStreams ++ ·) ih

theorem leads_takeItems (itemType : TypeRef) (site : Site) (usage : Option StreamUsage) (count : Nat) (source : ItemStream)
    (items : List Job) (h : s.Custody (source.openName ++ Job.openStreamsOfJobs items ++ names) running) :
    Leads (takeItems itemType site usage count source items) s fun out s' =>
      s'.Custody (openInJob out ++ names) running := by
  induction count generalizing s source items with
  | zero => exact Leads.pure h
  | succ count ih =>
    have hgathered : ∀ s' : ExecStage, s'.Custody (Job.openStreamsOfJobs items ++ names) running →
        s'.Custody (openInJob (.ok (.gather .list false (items.reverse.map .running))) ++ names) running := by
      intro s' h'
      refine h'.perm (List.Perm.append_right names ?_)
      show List.Perm _ (Job.openStreamsOfSlots (items.reverse.map .running))
      rw [Job.openStreamsOfSlots_running, Job.openStreamsOfJobs_eq_flatMap, Job.openStreamsOfJobs_eq_flatMap]
      exact items.reverse_perm.symm.flatMap_right _
    rw [List.append_assoc] at h
    unfold takeItems
    dsimp only
    split
    · exact Leads.andThen (leads_spawnFetcher _ _ _ source _ h) fun _ s' h' => Leads.pure (hgathered s' h')
    · refine Leads.andThen (leads_pollStream source h) fun polled s' hpolled => ?_
      obtain ⟨h', hgives⟩ := hpolled
      split
      · have hname : _ = source.openName := hgives.2
        refine Leads.pure ?_
        show s'.Custody (_ ++ Job.openStreamsOfJobs items ++ names) running
        rw [hname, List.append_assoc]
        exact h'
      · exact Leads.andThen (leads_noteEnded h') fun _ s'' h'' => Leads.pure (hgathered s'' h'')
      · refine Leads.andThen (leads_noteEnded h') fun _ s'' h'' => ?_
        exact Leads.andThen (leads_noteClosed h'') fun _ s₃ h₃ => Leads.pure h₃
      · rename_i item
        have hname : _ = source.openName := hgives.2
        refine ih _ _ (h'.perm ?_)
        show (item.openStreams ++ (source.openName ++ (Job.openStreamsOfJobs items ++ names))).Perm
          (_ ++ (item.openStreams ++ Job.openStreamsOfJobs items) ++ names)
        rw [hname, List.append_assoc, List.append_assoc]
        exact List.perm_append_comm_assoc _ _ _

/-! ### Jobs -/

theorem passesOn_run (c : ExecutionContext) (fuel : Nat) : PassesOn (Job.run c fuel) := by
  induction fuel with
  | zero => exact fun _ _ => Leads.failure
  | succ fuel ih =>
    intro running names s job h
    unfold Job.run
    cases job with
    | failed e => exact Leads.pure h
    | field type site value =>
      refine Leads.andThen (ih value h) fun ran s' h' => ?_
      cases ran with
      | waiting value' => exact Leads.pure h'
      | done outcome =>
        cases outcome with
        | ok v => exact Leads.pure h'
        | error e => exact Leads.andThen (leads_absorb type site e h') fun _ s'' h'' => Leads.pure h''
    | complete type site value =>
      refine Leads.andThen (leads_completeValue c type site value h) fun progress s' h' => ?_
      cases progress with
      | done outcome => exact Leads.pure h'
      | go job => exact ih job h'
    | await type site timer outcome =>
      refine Leads.andThen (Q := fun _ s' => s'.Custody names running) (Leads.modifyGet (h.pollTimer timer)) ?_
      intro timer? s' h'
      split
      · exact Leads.pure h'
      · exact Leads.pure h'
      · rename_i value
        exact Leads.andThen (leads_noteOpened h' value.openStreams) fun _ s'' h'' => ih _ h''
    | nonNull info value =>
      refine Leads.andThen (ih value h) fun ran s' h' => ?_
      cases ran with
      | waiting value' => exact Leads.pure h'
      | done outcome =>
        cases outcome with
        | error e => exact Leads.pure h'
        | ok v =>
          dsimp only
          split <;> exact Leads.pure h'
    | gather shape started children => exact leads_runChildren ih shape started children h
    | iterate type site usage source items =>
      refine Leads.andThen (leads_takeItems type site usage _ source items h) fun out s' h' => ?_
      split
      · exact Leads.pure h'
      · exact Leads.pure h'
      · exact ih _ h'
    | select fields => exact Leads.andThen (leads_selectFields c fields h) fun job s' h' => ih job h'
    | serial fields done current remaining =>
      cases current with
      | none =>
        cases remaining with
        | nil => exact Leads.pure h
        | cons field rest =>
          obtain ⟨key, group⟩ := field
          refine Leads.andThen (leads_fieldJob c fields key group h) fun job? s' h' => ?_
          cases job? with
          | none => exact ih _ h'
          | some job =>
            refine ih _ ?_
            show s'.Custody (job.openStreams ++ names) running
            have h' : s'.Custody (job.openStreams ++ [] ++ names) running := h'
            rwa [List.append_nil] at h'
      | some current =>
        obtain ⟨key, job⟩ := current
        refine Leads.andThen (ih job h) fun ran s' h' => ?_
        cases ran with
        | waiting job' => exact Leads.pure h'
        | done outcome =>
          cases outcome with
          | error e => exact Leads.pure h'
          | ok v => exact ih _ h'

/-! ### Tasks -/

/-- The names of the streams that are open in a task, if there is one, and the stream whose items it fetches. -/
def Stage.CustodyOf (task? : Option Task) (names : List String) (running : List (StreamId × HookId)) (s : ExecStage) :
    Prop :=
  s.Custody ((task?.map Task.openStreams).getD [] ++ names) ((task?.bind Task.fetching?).toList ++ running)

theorem leads_fetchItems (count : Nat) {f : Fetcher} (h : s.Custody names ((f.stream, f.hook) :: running)) :
    Leads (fetchItems count f) s fun task? s' => s'.CustodyOf task? names running := by
  induction count generalizing s f with
  | zero => exact Leads.pure h
  | succ count ih =>
    unfold fetchItems
    refine Leads.andThen (leads_pollStream f.source h) fun polled s₁ hpolled => ?_
    obtain ⟨after, polled⟩ := polled
    obtain ⟨h₁, hgives⟩ := hpolled
    dsimp only at h₁ hgives ⊢
    have hcut : ∀ s' : ExecStage, s'.Custody (polled.openStreams ++ names) ((f.stream, f.hook) :: running) →
        Leads (do
          Execution.noteClosed polled.openStreams
          publishUnit fun p => p.retireItems f.record
          modify fun s => s.fire f.hook
          return none) s' fun task? s'' => s''.CustodyOf task? names running := by
      intro s' h'
      refine Leads.andThen (leads_noteClosed h') fun _ s₂ h₂ => ?_
      refine Leads.andThen (leads_publishUnit h₂ fun p => .retireItems p _) fun _ s₃ h₃ => ?_
      exact Leads.bind (Leads.modify (Leads.pure ((disarms_fire s₃ f.hook).custody_cons h₃)))
    -- Once the stream is over its hook is disarmed, and nobody needs to know it.
    have hretire := disarms_retire s₁ f.hook
    cases polled with
    | waiting => exact Leads.pure h₁
    | ended =>
      dsimp only
      rw [if_pos (show after.finished = true from hgives)]
      refine Leads.bind (Leads.modify (Leads.bind (Leads.get ?_)))
      split
      · exact hcut _ (hretire.custody h₁)
      · refine Leads.andThen (leads_publishUnit (hretire.custody_cons h₁) fun p => ?_) fun _ s₃ h₃ => Leads.pure h₃
        exact .trans (.modifyRecord p _ _) (.completeItems _ _ _)
    | item outcome =>
      cases outcome with
      | error e =>
        dsimp only
        rw [if_pos (show after.finished = true from hgives)]
        refine Leads.bind (Leads.modify (Leads.bind (Leads.get ?_)))
        split
        · exact hcut _ (hretire.custody h₁)
        · refine Leads.andThen (leads_publishAndClose (hretire.custody_cons h₁) fun p => .filter p _ _) fun _ s₃ h₃ => ?_
          exact Leads.andThen (leads_publishAndClose h₃ fun p => .failItems p _ _) fun _ s₄ h₄ => Leads.pure h₄
      | ok item =>
        obtain ⟨hopen, -⟩ : after.finished = false ∧ _ := hgives
        dsimp only
        rw [if_neg (by simp [hopen])]
        refine Leads.bind (Leads.get ?_)
        split
        · exact hcut _ h₁
        · refine Leads.andThen (leads_spawn (.item _ _ (streamedItemJob _ _ _ _ _ item)) h₁) fun _ s₂ h₂ => ?_
          exact Leads.andThen (leads_publish h₂ fun p => .addItems p _ _ _) fun next s₃ h₃ => ih h₃

theorem leads_task_custody (c : ExecutionContext) (fuel : Nat) {task : Task} (h : s.CustodyOf (some task) names running) :
    Leads (task.run c fuel) s fun task? s' => s'.CustodyOf task? names running := by
  cases task with
  | fieldSet path id data =>
    unfold Task.run
    refine Leads.andThen (passesOn_run c fuel data h) fun ran s' h' => ?_
    cases ran with
    | waiting data' => exact Leads.pure h'
    | done outcome =>
      cases outcome with
      | ok v => exact Leads.andThen (leads_publishUnit h' fun p => .completeFieldSet p _ _) fun _ s'' h'' => Leads.pure h''
      | error e =>
        refine Leads.andThen (leads_publishAndClose h' fun p => .filter p _ _) fun _ s'' h'' => ?_
        exact Leads.andThen (leads_publishUnit h'' fun p => .failFieldSet p _ _) fun _ s₃ h₃ => Leads.pure h₃
  | item listPath id value =>
    unfold Task.run
    refine Leads.andThen (passesOn_run c fuel value h) fun ran s' h' => ?_
    cases ran with
    | waiting value' => exact Leads.pure h'
    | done outcome =>
      cases outcome with
      | ok v => exact Leads.andThen (leads_publishUnit h' fun p => .completeItems p _ _) fun _ s'' h'' => Leads.pure h''
      | error e =>
        refine Leads.andThen (leads_publishAndClose h' fun p => .filter p _ _) fun _ s'' h'' => ?_
        exact Leads.andThen (leads_publishAndClose h'' fun p => .failItems p _ _) fun _ s₃ h₃ => Leads.pure h₃
  | fetch f => exact leads_fetchItems _ h

end GraphQL
