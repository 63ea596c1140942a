import GraphQL.Proofs.Release.Custody

/-!
# Completing values passes streams on

A step of the completion of values is given the streams of the value, and the job that it leads to holds those that it did
not close.  What is spawned holds the streams that it was given.
-/

namespace GraphQL

open Execution Stage

variable {s : ExecStage} {names : List String} {running : List (StreamId × HookId)}

/-! ### The stage -/

/-- The names of the streams that are open in what a step comes to. -/
def Progress.openStreams : Progress → List String
  | .done _ => []
  | .go job => job.openStreams

/-- The names of the streams that are open in the result of a field. -/
private def openIn : Except Error FieldValue → List String
  | .ok value => value.openStreams
  | .error _ => []

theorem leads_noteClosed {closed : List String} (h : s.Custody (closed ++ names) running) :
    Leads (Execution.noteClosed closed) s fun _ s' => s'.Custody names running :=
  Leads.modify h.noteClosed

theorem leads_noteEnded {ended : List String} (h : s.Custody (ended ++ names) running) :
    Leads (Execution.noteEnded ended) s fun _ s' => s'.Custody names running :=
  Leads.modify h.noteEnded

theorem leads_noteOpened (h : s.Custody names running) (opened : List String) :
    Leads (Execution.noteOpened opened) s fun _ s' => s'.Custody (opened ++ names) running :=
  Leads.modify (h.noteOpened opened)

theorem leads_publish {α : Type} {f : Publisher Task → Publisher Task × α} (h : s.Custody names running)
    (hf : ∀ p : Publisher Task, p.KeepsHooks (f p).1) : Leads (Execution.publish f) s fun _ s' => s'.Custody names running :=
  Leads.bind (Leads.get (Leads.bind (Leads.set (Leads.pure (h.withPublisher (hf _))))))

theorem leads_publishUnit {f : Publisher Task → Publisher Task} (h : s.Custody names running)
    (hf : ∀ p : Publisher Task, p.KeepsHooks (f p)) : Leads (Execution.publishUnit f) s fun _ s' => s'.Custody names running :=
  leads_publish h hf

theorem leads_publishAndClose {f : Publisher Task → Publisher Task × List StreamId} (h : s.Custody names running)
    (hf : ∀ p : Publisher Task, p.KeepsHooks (f p).1) : Leads (Execution.publishAndClose f) s fun _ s' => s'.Custody names running :=
  Leads.modify (h.publishAndClose (hf _))

theorem leads_spawn (task : Task) (h : s.Custody (task.openStreams ++ names) (task.fetching?.toList ++ running)) :
    Leads (Execution.spawn task) s fun _ s' => s'.Custody names running :=
  Leads.modify h.spawn

/-- What a step remembers does not matter. -/
theorem Stage.Custody.memory (h : s.Custody names running) (memory : Memory) :
    Custody names running { s with memory := memory } :=
  ⟨h.balanced, h.linked, h.armed⟩

/-- Starting a timer changes nothing. -/
theorem Stage.Custody.pollTimer (h : s.Custody names running) (t : Timer) : (s.pollTimer t).1.Custody names running := by
  unfold Stage.pollTimer
  split
  · split
    · exact h
    · exact ⟨h.balanced, h.linked, h.armed⟩
  · exact h

/-! ### Fields -/

theorem leads_call (r : Resolver) (input : ResolverInput) (h : s.Custody names running) :
    Leads (call r input) s fun outcome s' => s'.Custody (outcome.openStreams ++ names) running := by
  unfold call
  dsimp only
  split
  · exact Leads.pure h
  · exact Leads.bind (Leads.modify (Leads.pure ((h.called _ _ _).noteOpened _)))

theorem leads_resolveField (c : ExecutionContext) (parent : Json) (field : Field) (definition : FieldDef)
    (info : FieldInfo) (h : s.Custody names running) :
    Leads (resolveField c parent field definition info) s fun outcome s' => s'.Custody (openIn outcome ++ names) running := by
  have hmap : ∀ (outcome : Resolved), openIn (outcome.mapError ResolverError.toError) = outcome.openStreams := by
    intro outcome
    cases outcome <;> rfl
  unfold resolveField
  split
  · exact Leads.pure h
  · split
    · exact Leads.pure h
    · split
      · exact Leads.pure h
      · refine Leads.pure ?_
        have hnone : (propertyOf parent info.fieldName).openStreams = [] := by
          unfold propertyOf
          split <;> rfl
        rw [hmap, hnone]
        exact h
      · refine Leads.andThen (leads_call _ _ h) fun outcome s' h' => Leads.pure ?_
        rw [hmap]
        exact h'

theorem leads_fieldJob (c : ExecutionContext) (o : ObjectFields) (key : String) (group : FieldGroup)
    (h : s.Custody names running) : Leads (fieldJob c o key group) s fun job? s' =>
      s'.Custody (Job.openStreamsOfJobs job?.toList ++ names) running := by
  unfold fieldJob
  dsimp only
  split
  · exact Leads.pure h
  · refine Leads.andThen (leads_resolveField _ _ _ _ _ h) fun outcome s' h' => ?_
    cases outcome with
    | error e => exact Leads.pure h'
    | ok value =>
      refine Leads.pure ?_
      show s'.Custody (value.openStreams ++ [] ++ names) running
      rwa [List.append_nil]

theorem leads_fieldJobs (c : ExecutionContext) (o : ObjectFields) (fields : GroupedFieldSet)
    (h : s.Custody names running) : Leads (fieldJobs c o fields) s fun jobs s' =>
      s'.Custody (Job.openStreamsOfJobs (jobs.map Prod.snd) ++ names) running := by
  induction fields generalizing s names with
  | nil => exact Leads.pure h
  | cons field rest ih =>
    obtain ⟨key, group⟩ := field
    unfold fieldJobs
    refine Leads.andThen (leads_fieldJob c o key group h) fun job? s' h' => ?_
    cases job? with
    | none => exact ih h'
    | some job =>
      refine Leads.andThen (ih h') fun jobs s'' h'' => Leads.pure (h''.perm ?_)
      show (_ ++ (job.openStreams ++ [] ++ names)).Perm (job.openStreams ++ _ ++ names)
      rw [List.append_nil, List.append_assoc]
      exact List.perm_append_comm_assoc _ _ _

theorem Job.openStreamsOfSlots_running (jobs : List Job) :
    openStreamsOfSlots (jobs.map .running) = openStreamsOfJobs jobs := by
  induction jobs with
  | nil => rfl
  | cons job rest ih =>
    show job.openStreams ++ openStreamsOfSlots (rest.map .running) = _
    rw [ih]
    rfl

theorem leads_selectFields (c : ExecutionContext) (o : ObjectFields) (h : s.Custody names running) :
    Leads (selectFields c o) s fun job s' => s'.Custody (job.openStreams ++ names) running := by
  unfold selectFields
  refine Leads.andThen (leads_fieldJobs c o o.fields h) fun jobs s' h' => Leads.pure ?_
  show s'.Custody (Job.openStreamsOfSlots (jobs.map fun j => .running j.2) ++ names) running
  rw [show jobs.map (fun j => Slot.running j.2) = (jobs.map Prod.snd).map .running from List.map_map.symm,
    Job.openStreamsOfSlots_running]
  exact h'

theorem leads_absorb (type : TypeRef) (site : Site) (raw : Error) (h : s.Custody names running) :
    Leads (absorb type site raw) s fun _ s' => s'.Custody names running := by
  unfold absorb
  dsimp only
  split
  · exact Leads.pure h
  · refine Leads.andThen (leads_publishUnit h fun p => .modifyRecord p _ _) fun _ s' h' => ?_
    exact Leads.andThen (leads_publishAndClose h' fun p => .filter p _ _) fun _ s'' h'' => Leads.pure h''

/-! ### Deferred fragments -/

theorem leads_addFragments (path : Path) (record : RecordId) (usages : List DeferUsage) (deferMap : DeferMap)
    (h : s.Custody names running) :
    Leads (addFragments path record usages deferMap) s fun _ s' => s'.Custody names running := by
  unfold addFragments
  induction usages generalizing s deferMap with
  | nil => exact Leads.pure h
  | cons usage rest ih =>
    rw [List.foldlM_cons]
    refine Leads.andThen (Q := fun _ s' => s'.Custody names running) ?_ fun map s' h' => ih map h'
    exact Leads.andThen (leads_publish h fun p => .addFragment p _ _ _) fun id s' h' => Leads.pure h'

theorem leads_addFieldSets (path : Path) (deferMap : DeferMap) (sets : List NewFieldSet) (h : s.Custody names running) :
    Leads (addFieldSets path deferMap sets) s fun _ s' => s'.Custody names running := by
  unfold addFieldSets
  induction sets generalizing s with
  | nil => exact Leads.pure h
  | cons set rest ih =>
    rw [List.mapM_cons]
    refine Leads.andThen (Q := fun _ s' => s'.Custody names running) ?_ fun e s' h' =>
      Leads.andThen (ih h') fun _ s'' h'' => Leads.pure h''
    exact Leads.andThen (leads_publish h fun p => .addFieldSet p _ _) fun id s' h' => Leads.pure h'

theorem leads_spawnFieldSets (c : ExecutionContext) (o : ObjectFields) (sets : List (NewFieldSet × RecordId))
    (h : s.Custody names running) : Leads (spawnFieldSets c o sets) s fun _ s' => s'.Custody names running := by
  induction sets generalizing s with
  | nil => exact Leads.pure h
  | cons e rest ih =>
    obtain ⟨set, id⟩ := e
    unfold spawnFieldSets
    dsimp only
    split
    · exact Leads.bind (Leads.pure (Leads.andThen (leads_spawn (.fieldSet _ _ (.select _)) h) fun _ s' h' => ih h'))
    · refine Leads.andThen (leads_selectFields c _ h) fun job s' h' => ?_
      exact Leads.andThen (leads_spawn (.fieldSet _ _ job) h') fun _ s'' h'' => ih h''

/-! ### Objects -/

theorem leads_completeObject (c : ExecutionContext) (typeName : String) (site : Site) (value : Json)
    (h : s.Custody names running) : Leads (completeObject c typeName site value) s fun progress s' =>
      s'.Custody (progress.openStreams ++ names) running := by
  unfold completeObject
  extract_lets isOfType
  split
  · exact Leads.pure h
  · refine Leads.bind (Leads.get ?_)
    refine Leads.bind (Leads.set ?_)
    have h₁ := h.memory { s.memory with
      collector := (s.memory.collector.collectSubfields c.collection typeName site.group).2 }
    split
    · exact Leads.pure h₁
    · refine Leads.andThen (leads_addFragments _ _ _ _ h₁) fun deferMap s₂ h₂ => ?_
      refine Leads.andThen (leads_addFieldSets _ _ _ h₂) fun sets s₃ h₃ => ?_
      refine Leads.andThen (leads_selectFields c _ h₃) fun data s₄ h₄ => ?_
      exact Leads.andThen (leads_spawnFieldSets c _ _ h₄) fun _ s₅ h₅ => Leads.pure h₅

/-! ### Leaves and lists -/

theorem leads_singleValue (value : FieldValue) (typeName : String) (h : s.Custody (value.openStreams ++ names) running) :
    Leads (singleValue value typeName) s fun _ s' => s'.Custody names running := by
  unfold singleValue
  split
  · exact Leads.pure h
  · exact Leads.pure h
  · exact Leads.andThen (leads_noteClosed h) fun _ s' h' => Leads.pure h'

theorem leads_completeLeaf (c : ExecutionContext) (typeName : String) (value : FieldValue)
    (h : s.Custody (value.openStreams ++ names) running) :
    Leads (completeLeaf c typeName value) s fun _ s' => s'.Custody names running := by
  unfold completeLeaf
  refine Leads.andThen (leads_singleValue value typeName h) fun outcome s' h' => ?_
  split
  · exact Leads.pure h'
  · split
    · exact Leads.pure h'
    · split <;> exact Leads.pure h'

theorem leads_streamUsage (c : ExecutionContext) (group : FieldGroup) (path : Path) (h : s.Custody names running) :
    Leads (streamUsage c group path) s fun _ s' => s'.Custody names running := by
  unfold streamUsage
  split
  · exact Leads.pure h
  · refine Leads.bind (Leads.get ?_)
    split
    · exact Leads.pure h
    · split
      · exact Leads.pure h
      · exact Leads.bind (Leads.set (Leads.pure (h.memory _)))

theorem leads_spawnItems (itemType : TypeRef) (site : Site) (usage : StreamUsage) (stream : StreamId) (parent : RecordId)
    (index : Nat) (items : List FieldValue) (h : s.Custody (FieldValue.openStreamsOfList items ++ names) running) :
    Leads (spawnItems itemType site usage stream parent index items) s fun _ s' => s'.Custody names running := by
  induction items generalizing s parent index with
  | nil => exact Leads.pure h
  | cons item rest ih =>
    unfold spawnItems
    refine Leads.andThen (leads_publish h fun p => .addItems p _ _ _) fun id s₁ h₁ => ?_
    rw [FieldValue.openStreamsOfList, List.append_assoc] at h₁
    exact Leads.andThen (leads_spawn (.item _ _ (streamedItemJob _ _ _ _ _ item)) h₁) fun _ s₂ h₂ => ih _ _ h₂

theorem Job.openStreamsOfJobs_itemJobs (itemType : TypeRef) (site : Site) (index : Nat) (items : List FieldValue) :
    openStreamsOfJobs (itemJobs itemType site index items) = FieldValue.openStreamsOfList items := by
  induction items generalizing index with
  | nil => rfl
  | cons item rest ih => exact congrArg (item.openStreams ++ ·) (ih (index + 1))

private theorem openStreamsOfList_take_drop (n : Nat) (items : List FieldValue) :
    FieldValue.openStreamsOfList items =
      FieldValue.openStreamsOfList (items.take n) ++ FieldValue.openStreamsOfList (items.drop n) := by
  induction items generalizing n with
  | nil => cases n <;> rfl
  | cons item rest ih =>
    cases n with
    | zero => rfl
    | succ n =>
      show item.openStreams ++ _ = item.openStreams ++ _ ++ _
      rw [ih n, List.append_assoc]
      rfl

theorem leads_completeItems (c : ExecutionContext) (itemType : TypeRef) (site : Site) (items : List FieldValue)
    (h : s.Custody (FieldValue.openStreamsOfList items ++ names) running) :
    Leads (completeItems c itemType site items) s fun progress s' => s'.Custody (progress.openStreams ++ names) running := by
  unfold completeItems
  refine Leads.andThen (leads_streamUsage _ _ _ h) fun usage s₁ h₁ => ?_
  cases usage with
  | error e => exact Leads.andThen (leads_noteClosed h₁) fun _ s₂ h₂ => Leads.pure h₂
  | ok usage =>
    have hgathered : ∀ (count : Nat) (s' : ExecStage),
        s'.Custody (FieldValue.openStreamsOfList (items.take count) ++ names) running →
        s'.Custody (Progress.openStreams (.go (.gather .list false
          ((itemJobs itemType site 0 (items.take count)).map .running))) ++ names) running := by
      intro count s' h'
      show s'.Custody (Job.openStreamsOfSlots _ ++ names) running
      rwa [Job.openStreamsOfSlots_running, Job.openStreamsOfJobs_itemJobs]
    cases usage with
    | none =>
      refine Leads.pure (hgathered _ _ ?_)
      rwa [List.take_length]
    | some u =>
      rw [openStreamsOfList_take_drop u.initialCount] at h₁
      dsimp only
      cases hdrop : items.drop u.initialCount with
      | nil =>
        rw [hdrop, FieldValue.openStreamsOfList, List.append_nil] at h₁
        exact Leads.pure (hgathered _ _ h₁)
      | cons item rest =>
        rw [hdrop] at h₁
        refine Leads.andThen (leads_publish h₁ fun p => .addStream p _ _ _) fun stream s₂ h₂ => ?_
        rw [List.append_assoc] at h₂
        have h₂ := h₂.perm (List.perm_append_comm_assoc _ _ _)
        refine Leads.andThen (leads_spawnItems _ _ _ _ _ _ _ h₂) fun last s₃ h₃ => ?_
        refine Leads.andThen (leads_publishUnit h₃ fun p => .modifyRecord p _ _) fun _ s₄ h₄ => ?_
        exact Leads.pure (hgathered _ _ h₄)

theorem leads_completeStream (c : ExecutionContext) (itemType : TypeRef) (site : Site) (source : ItemStream)
    (h : s.Custody (source.openName ++ names) running) : Leads (completeStream c itemType site source) s fun progress s' =>
      s'.Custody (progress.openStreams ++ names) running := by
  unfold completeStream
  refine Leads.andThen (leads_streamUsage _ _ _ h) fun usage s₁ h₁ => ?_
  cases usage with
  | error e => exact Leads.andThen (leads_noteClosed h₁) fun _ s₂ h₂ => Leads.pure h₂
  | ok usage =>
    refine Leads.pure ?_
    show s₁.Custody (source.openName ++ [] ++ names) running
    rwa [List.append_nil]

/-- The name of a stream whose items will be fetched goes to its hook. -/
theorem leads_spawnFetcher (itemType : TypeRef) (site : Site) (usage : StreamUsage) (source : ItemStream) (index : Nat)
    (h : s.Custody (source.openName ++ names) running) :
    Leads (spawnFetcher itemType site usage source index) s fun _ s' => s'.Custody names running := by
  have hname : source.openName.head?.toList = source.openName := by
    unfold ItemStreamOf.openName
    split
    · rfl
    · cases source.armed <;> rfl
  rw [← hname] at h
  have h₁ := h.addHook site.path usage.label
  unfold spawnFetcher
  refine Leads.bind (Leads.modifyGet ?_)
  refine Leads.bind (Leads.bind (Leads.get (Leads.bind (Leads.set (Leads.pure ?_)))))
  exact Leads.andThen (leads_publish h₁ fun p => .addItems p _ _ _) fun id s₂ h₂ => leads_spawn (.fetch _) h₂

theorem leads_completeList (c : ExecutionContext) (itemType : TypeRef) (site : Site) (value : FieldValue)
    (h : s.Custody (value.openStreams ++ names) running) : Leads (completeList c itemType site value) s fun progress s' =>
      s'.Custody (progress.openStreams ++ names) running := by
  have hvalues : ∀ items : List Json, FieldValue.openStreamsOfList (items.map .value) = [] := by
    intro items
    induction items with
    | nil => rfl
    | cons item rest ih => exact ih
  unfold completeList
  split
  · exact leads_completeStream c itemType site _ h
  · exact leads_completeItems c itemType site _ h
  · rename_i items
    refine leads_completeItems c itemType site _ ?_
    rw [hvalues]
    exact h
  · rename_i hstream hlist _
    refine Leads.pure ?_
    cases value with
    | value v => exact h
    | later notice ticks outcome => exact h
    | list items => exact absurd rfl (hlist items)
    | stream source => exact absurd rfl (hstream source)

/-! ### Values -/

theorem leads_completeNamed (c : ExecutionContext) (typeName : String) (site : Site) (value : FieldValue)
    (h : s.Custody (value.openStreams ++ names) running) : Leads (completeNamed c typeName site value) s fun progress s' =>
      s'.Custody (progress.openStreams ++ names) running := by
  unfold completeNamed
  split
  · exact Leads.andThen (leads_completeLeaf c _ _ h) fun _ s' h' => Leads.pure h'
  · exact Leads.andThen (leads_completeLeaf c _ _ h) fun _ s' h' => Leads.pure h'
  · refine Leads.andThen (leads_singleValue _ _ h) fun outcome s' h' => ?_
    split
    · exact Leads.pure h'
    · split
      · exact Leads.pure h'
      · exact leads_completeObject c _ _ _ h'
  · refine Leads.andThen (leads_singleValue _ _ h) fun outcome s' h' => ?_
    split
    · exact Leads.pure h'
    · split
      · exact Leads.pure h'
      · exact leads_completeObject c _ _ _ h'
  · refine Leads.andThen (leads_singleValue _ _ h) fun outcome s' h' => ?_
    split
    · exact Leads.pure h'
    · exact leads_completeObject c _ _ _ h'
  · exact Leads.andThen (leads_noteClosed h) fun _ s' h' => Leads.pure h'

theorem leads_completeValue (c : ExecutionContext) (type : TypeRef) (site : Site) (value : FieldValue)
    (h : s.Custody (value.openStreams ++ names) running) : Leads (completeValue c type site value) s fun progress s' =>
      s'.Custody (progress.openStreams ++ names) running := by
  have hnull : ∀ {value : FieldValue}, value.isNull = true → value.openStreams = [] := by
    intro value hnull
    cases value with
    | value v => rfl
    | _ => exact absurd hnull (by simp [FieldValue.isNull])
  unfold completeValue
  split
  · rename_i notice ticks outcome
    cases notice with
    | none => exact Leads.pure h
    | some n =>
      refine Leads.bind (Leads.modify (Leads.pure ?_))
      cases n with
      | called typeName fieldName path => exact h.called typeName fieldName path
      | _ => exact h
  · exact Leads.pure h
  · split
    · rename_i hisNull
      rw [hnull hisNull] at h
      exact Leads.pure h
    · exact leads_completeList c _ _ _ h
  · split
    · rename_i hisNull
      rw [hnull hisNull] at h
      exact Leads.pure h
    · exact leads_completeNamed c _ _ _ h

end GraphQL
