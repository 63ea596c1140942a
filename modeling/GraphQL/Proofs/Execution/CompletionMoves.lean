import GraphQL.Proofs.Execution.Works

/-!
# Completing values works by moves

Every step of completion is a series of moves, and the jobs that go on with a value keep to the record and the deferred
fragments of its site.
-/

namespace GraphQL

open Execution Stage

/-- The sites of the job that goes on have a property. -/
def Progress.Sites (P : RecordId → DeferMap → Prop) : Progress → Prop
  | .done _ => True
  | .go job => job.Sites P

/-! ### Quiet steps -/

theorem quiet_noteClosed (names : List String) : Quiet (noteClosed names) fun _ => True :=
  Quiet.modify fun s => noteClosed_beside s names

theorem quiet_noteOpened (names : List String) : Quiet (noteOpened names) fun _ => True :=
  Quiet.modify fun s => noteOpened_beside s names

theorem quiet_noteEnded (names : List String) : Quiet (noteEnded names) fun _ => True :=
  Quiet.modify fun s => noteEnded_beside s names

theorem quiet_pollTimer (t : Timer) : Quiet (Execution.pollTimer t) fun _ => True := by
  refine Quiet.modifyGet fun s => ?_
  show s.Beside (s.pollTimer t).1
  unfold Stage.pollTimer
  split
  · split <;> exact ⟨rfl, rfl, rfl⟩
  · exact ⟨rfl, rfl, rfl⟩

theorem quiet_call (r : Resolver) (input : ResolverInput) : Quiet (call r input) fun _ => True := by
  unfold call
  dsimp only
  split
  · exact Quiet.pure trivial
  · refine Quiet.bind (Quiet.modify fun s => ?_) fun _ _ => Quiet.pure trivial
    have hnote : s.Beside (s.note (.called input.info.parentType input.info.fieldName input.info.path)) :=
      ⟨rfl, rfl, rfl⟩
    exact hnote.trans (noteOpened_beside _ _)

theorem quiet_resolveField (c : ExecutionContext) (parent : Json) (field : Field) (definition : FieldDef)
    (info : FieldInfo) : Quiet (resolveField c parent field definition info) fun _ => True := by
  unfold resolveField
  split
  · exact Quiet.pure trivial
  · split
    · exact Quiet.pure trivial
    · split
      · exact Quiet.pure trivial
      · exact Quiet.pure trivial
      · exact Quiet.bind (quiet_call _ _) fun _ _ => Quiet.pure trivial

section Fields

variable {P : RecordId → DeferMap → Prop}

theorem quiet_fieldJob (c : ExecutionContext) {o : ObjectFields} (ho : P o.record o.deferMap) (key : String)
    (group : FieldGroup) : Quiet (fieldJob c o key group) fun job? => ∀ job, job? = some job → job.Sites P := by
  unfold fieldJob
  dsimp only
  split
  · exact Quiet.pure (by simp)
  · refine Quiet.bind (quiet_resolveField _ _ _ _ _) fun outcome _ => ?_
    split
    · refine Quiet.pure fun job heq => ?_
      cases heq
      exact ⟨ho, ho⟩
    · refine Quiet.pure fun job heq => ?_
      cases heq
      exact ⟨ho, trivial⟩

theorem quiet_fieldJobs (c : ExecutionContext) {o : ObjectFields} (ho : P o.record o.deferMap)
    (fields : GroupedFieldSet) : Quiet (fieldJobs c o fields) fun jobs => ∀ j ∈ jobs, j.2.Sites P := by
  induction fields with
  | nil => exact Quiet.pure (by simp)
  | cons field rest ih =>
    obtain ⟨key, group⟩ := field
    refine Quiet.bind (quiet_fieldJob c ho key group) fun job? hjob => ?_
    cases job? with
    | none => exact ih
    | some job =>
      refine Quiet.bind ih fun jobs hjobs => Quiet.pure fun j hj => ?_
      rcases List.mem_cons.1 hj with rfl | hj
      · exact hjob job rfl
      · exact hjobs j hj

theorem quiet_selectFields (c : ExecutionContext) {o : ObjectFields} (ho : P o.record o.deferMap) :
    Quiet (selectFields c o) fun job => job.Sites P := by
  refine Quiet.bind (quiet_fieldJobs c ho o.fields) fun jobs hjobs => Quiet.pure ?_
  rw [show (jobs.map fun j => Slot.running j.2) = (jobs.map Prod.snd).map .running by simp]
  refine Job.sites_gather _ _ fun job hjob => ?_
  obtain ⟨j, hj, rfl⟩ := List.mem_map.1 hjob
  exact hjobs j hj

end Fields

theorem quiet_singleValue (value : FieldValue) (typeName : String) :
    Quiet (singleValue value typeName) fun _ => True := by
  unfold singleValue
  split
  · exact Quiet.pure trivial
  · exact Quiet.pure trivial
  · exact Quiet.bind (quiet_noteClosed _) fun _ _ => Quiet.pure trivial

theorem quiet_completeLeaf (c : ExecutionContext) (typeName : String) (value : FieldValue) :
    Quiet (completeLeaf c typeName value) fun _ => True := by
  unfold completeLeaf
  refine Quiet.bind (quiet_singleValue _ _) fun outcome _ => ?_
  split
  · exact Quiet.pure trivial
  · split
    · exact Quiet.pure trivial
    · split <;> exact Quiet.pure trivial

theorem quiet_streamUsage (c : ExecutionContext) (group : FieldGroup) (path : Path) :
    Quiet (streamUsage c group path) fun _ => True := by
  intro s
  unfold streamUsage
  split
  · exact Quiet.pure trivial s
  · refine Leads.bind (Leads.get ?_)
    split
    · exact Quiet.pure trivial s
    · split
      · exact Quiet.pure trivial s
      · exact Leads.bind (Leads.set (Leads.pure ⟨⟨rfl, rfl, rfl⟩, trivial⟩))

/-! ### Fields and deferred fragments -/

variable {id : RecordId} {hand : List RecordId} {s : ExecStage}

theorem works_absorb (type : TypeRef) {site : Site} (hsite : s.publisher.Serves id site.record site.deferMap)
    (raw : Error) : Works (absorb type site raw) hand s fun _ hand' _ => hand' = hand := by
  unfold absorb
  dsimp only
  split
  · exact Works.pure rfl
  · have hhome : s.publisher.IsHome site.record := by
      rw [hsite.record]
      exact hsite.home
    refine Works.bind (Works.publishUnit (Q := fun _ hand' _ => hand' = hand) (Move.error _ hhome) rfl) ?_
    rintro - _ s' - rfl
    exact Works.bind (Works.modify (Q := fun _ hand'' _ => hand'' = _) (Moves.of_move (Move.filter _ _)) rfl)
      fun _ _ _ _ heq => Works.pure heq

theorem works_addFragments (path : Path) {record : RecordId} (usages : List DeferUsage) {deferMap : DeferMap}
    (hrecord : record.index < s.publisher.records.size) (hmap : ∀ e ∈ deferMap, s.publisher.IsFragment e.2) :
    Works (addFragments path record usages deferMap) hand s fun map hand' s' =>
      hand' = hand ∧ ∀ e ∈ map, s'.publisher.IsFragment e.2 := by
  induction usages generalizing deferMap s with
  | nil => exact Works.pure ⟨rfl, hmap⟩
  | cons usage rest ih =>
    unfold addFragments
    rw [List.foldlM_cons]
    have hparent : ((usage.ancestors.head?.bind deferMap.get?).getD record).index < s.publisher.records.size := by
      cases hget : usage.ancestors.head?.bind deferMap.get? with
      | none => exact hrecord
      | some parent =>
        obtain ⟨a, -, ha⟩ := Option.bind_eq_some_iff.1 hget
        obtain ⟨e, he, rfl⟩ := Option.map_eq_some_iff.1 ha
        exact (hmap e (List.mem_of_find?_eq_some he)).lt_size
    refine Works.sound fun hs => ?_
    refine Works.bind (Q := fun map hand' s' => hand' = hand ∧ ∀ e ∈ map, s'.publisher.IsFragment e.2) ?_ ?_
    · refine Works.bind (Q := fun id hand' s' => hand' = hand ∧ s'.publisher.IsFragment id)
        (Works.publish (Move.fragment path usage.label hparent) ⟨rfl, ?_⟩) ?_
      · exact ⟨_, (Publisher.Adds.addFragment hs.publisher.linked path usage.label hparent).new⟩
      · rintro id _ s' hg ⟨rfl, hid⟩
        refine Works.pure ⟨rfl, fun e he => ?_⟩
        rcases List.mem_cons.1 he with rfl | he
        · exact hid
        · exact hg.isFragment (hmap e he)
    · rintro map _ s' hg ⟨rfl, hmap'⟩
      exact ih (Nat.lt_of_lt_of_le hrecord hg.size_le) hmap'

theorem works_addFieldSets (path : Path) {deferMap : DeferMap} (sets : List NewFieldSet)
    (hmap : ∀ e ∈ deferMap, s.publisher.IsFragment e.2) :
    Works (addFieldSets path deferMap sets) hand s fun out hand' s' =>
      hand'.Perm (out.map Prod.snd ++ hand) ∧ ∀ e ∈ out, s'.publisher.IsFieldSet e.2 := by
  induction sets generalizing hand s with
  | nil => exact Works.pure ⟨List.Perm.refl _, by simp⟩
  | cons set rest ih =>
    unfold addFieldSets
    rw [List.mapM_cons]
    have hfragments : ∀ f ∈ set.targets.usages.filterMap (fun usage => deferMap.get? usage.id),
        s.publisher.IsFragment f := by
      intro f hf
      obtain ⟨usage, -, hget⟩ := List.mem_filterMap.1 hf
      obtain ⟨e, he, rfl⟩ := Option.map_eq_some_iff.1 hget
      exact hmap e (List.mem_of_find?_eq_some he)
    refine Works.bind (Q := fun e hand' s' => hand' = e.2 :: hand ∧ s'.publisher.IsFieldSet e.2) ?_ ?_
    · refine Works.bind (Q := fun id hand' s' => hand' = id :: hand ∧ s'.publisher.IsFieldSet id)
        (Works.publish (Move.fieldSet path hfragments) ⟨rfl, ?_⟩) fun id hand' s' _ h => Works.pure h
      exact ⟨_, (Publisher.Adds.addFieldSet path hfragments).new⟩
    · rintro e _ s' hg ⟨rfl, he⟩
      refine Works.bind (ih fun e he => hg.isFragment (hmap e he)) ?_
      rintro out hand' s'' hg' ⟨hperm, hout⟩
      refine Works.pure ⟨?_, fun e' he' => ?_⟩
      · refine hperm.trans ?_
        rw [List.map_cons, List.cons_append]
        exact List.perm_middle
      · rcases List.mem_cons.1 he' with rfl | he'
        · exact hg'.isFieldSet he
        · exact hout e' he'

theorem works_spawnFieldSets (c : ExecutionContext) {o : ObjectFields} (sets : List (NewFieldSet × RecordId))
    (hmap : ∀ e ∈ o.deferMap, s.publisher.IsFragment e.2) (hsets : ∀ e ∈ sets, s.publisher.IsFieldSet e.2) :
    Works (spawnFieldSets c o sets) (sets.map Prod.snd ++ hand) s fun _ hand' _ => hand' = hand := by
  induction sets generalizing s with
  | nil => exact Works.pure rfl
  | cons e rest ih =>
    obtain ⟨set, id⟩ := e
    have hid : s.publisher.IsFieldSet id := hsets (set, id) List.mem_cons_self
    unfold spawnFieldSets
    dsimp only
    have ho : s.publisher.Serves id id o.deferMap := ⟨rfl, hid.isHome, hmap⟩
    have hjob : ∀ {m : ExecM Job}, Quiet m (fun job => job.Sites (s.publisher.Serves id)) →
        Works (do
          let job ← m
          Execution.spawn (.fieldSet o.path id job)
          spawnFieldSets c o rest) (id :: (rest.map Prod.snd ++ hand)) s fun _ hand' _ => hand' = hand := by
      intro m hm
      refine Works.quiet_bind hm fun job s' hp _ hsites => ?_
      refine Works.bind (Works.spawn (.fieldSet o.path id job)
        (Q := fun _ hand' _ => hand' = rest.map Prod.snd ++ hand) (by rw [hp]; exact ⟨hid, hsites⟩)
        fun _ _ => rfl) ?_
      rintro - _ s'' hg rfl
      rw [hp] at hg
      exact ih (fun e he => hg.isFragment (hmap e he)) fun e he =>
        hg.isFieldSet (hsets e (List.mem_cons_of_mem _ he))
    split
    · exact hjob (Quiet.pure ho)
    · exact hjob (quiet_selectFields c (o := { o with fields := set.fields, record := id }) ho)

/-! ### Objects -/

/-- The fields of an object are resolved, and the sets of deferred ones are spawned. -/
theorem works_goOn (c : ExecutionContext) {o : ObjectFields} {sets : List (NewFieldSet × RecordId)} {m : ExecM Job}
    (hm : ∀ P : RecordId → DeferMap → Prop, P o.record o.deferMap → Quiet m fun job => job.Sites P)
    (ho : s.publisher.Serves id o.record o.deferMap) (hsets : ∀ e ∈ sets, s.publisher.IsFieldSet e.2) :
    Works (do
      let data ← m
      spawnFieldSets c o sets
      return Progress.go data) (sets.map Prod.snd ++ hand) s fun out hand' s' =>
        hand' = hand ∧ out.Sites (s'.publisher.Serves id) := by
  refine Works.quiet_bind (hm (s.publisher.Serves id) ho) fun job s' hp _ hsites => ?_
  rw [← hp] at ho hsets hsites
  refine Works.bind (works_spawnFieldSets c sets ho.fragments hsets) ?_
  rintro - _ s'' hg rfl
  exact Works.pure ⟨rfl, hg.sites hsites⟩

theorem works_completeObject (c : ExecutionContext) (typeName : String) {site : Site} (value : Json)
    (hsite : s.publisher.Serves id site.record site.deferMap) :
    Works (completeObject c typeName site value) hand s fun out hand' s' =>
      hand' = hand ∧ out.Sites (s'.publisher.Serves id) := by
  unfold completeObject
  extract_lets isOfType
  split
  · exact Works.pure ⟨rfl, trivial⟩
  · refine Works.get_bind ?_
    dsimp only
    refine Works.set_bind ⟨rfl, rfl, rfl⟩ ?_
    split
    · exact Works.pure ⟨rfl, trivial⟩
    · rename_i collected _
      have hlt : site.record.index < s.publisher.records.size := by
        rw [hsite.record]
        exact hsite.home.lt_size
      refine Works.bind (works_addFragments site.path collected.newUsages hlt hsite.fragments) ?_
      rintro deferMap _ s₂ hg₂ ⟨rfl, hmap⟩
      refine Works.bind (works_addFieldSets site.path collected.newSets hmap) ?_
      rintro sets hand' s₃ hg₃ ⟨hperm, hsets⟩
      refine Works.perm hperm (works_goOn (s := s₃) c (o := ⟨typeName, value, site.path, collected.fields, site.record,
        deferMap⟩) (fun P ho => quiet_selectFields c ho) ⟨hsite.record, ?_, ?_⟩ hsets)
      · exact hg₃.isHome (hg₂.isHome hsite.home)
      · exact fun e he => hg₃.isFragment (hmap e he)

/-! ### Lists -/

theorem sites_streamedItemJob {itemType : TypeRef} {group : FieldGroup} {info : FieldInfo} {path : Path}
    {record : RecordId} {item : FieldValue} (h : s.publisher.IsHome record) :
    (streamedItemJob itemType group info path record item).Sites (s.publisher.Serves record) :=
  have hserves : s.publisher.Serves record record [] := ⟨rfl, h, by simp⟩
  ⟨hserves, hserves⟩

theorem works_spawnItems (itemType : TypeRef) {site : Site} (usage : StreamUsage) {stream : StreamId}
    {parent : RecordId} (index : Nat) (items : List FieldValue)
    (hstream : ∃ st, s.publisher.stream? stream = some st ∧ st.path = site.path)
    (hparent : parent.index < s.publisher.records.size)
    (hlast : s.publisher.Unused stream ∧ items ≠ [] ∨ s.publisher.Tail stream parent) (hidle : s.Idle stream) :
    Works (spawnItems itemType site usage stream parent index items) hand s fun last hand' s' =>
      hand' = hand ∧ s'.publisher.Tail stream last ∧ s'.Idle stream := by
  induction items generalizing parent index s with
  | nil =>
    rcases hlast with ⟨-, hne⟩ | hlast
    · exact absurd rfl hne
    · exact Works.pure ⟨rfl, hlast, hidle⟩
  | cons item rest ih =>
    obtain ⟨st, hst, hpath⟩ := hstream
    have hlast' : s.publisher.Unused stream ∨ s.publisher.Tail stream parent := hlast.imp_left And.left
    refine Works.sound fun hs => ?_
    have ha := Publisher.Adds.addItems hs.publisher.linked stream (site.path.index index) hparent
    unfold spawnItems
    refine Works.bind (Works.publish (Move.items hparent ⟨st, hst, index, by rw [hpath]⟩ hlast' hidle)
      (Q := fun id hand' s' => hand' = id :: hand ∧ s'.publisher.Tail stream id ∧ s'.Idle stream ∧
        s'.publisher.AwaitsItem site.path id) ⟨rfl, ha.tail rfl rfl parent hlast', ?_, ?_⟩) ?_
    · intro f hf
      refine hidle f ?_
      have hold : .fetch f ∈ s.work.ready ++ s.work.waiting ++
          (s.publisher.addItems stream (site.path.index index) parent).1.inbox := hf
      rw [ha.inbox] at hold
      exact hold
    · obtain ⟨st', hst', hpath', -⟩ :=
        (Publisher.Grows.addItems s.publisher stream (site.path.index index) parent).streams stream st hst
      exact ⟨_, st', ha.new, rfl, hst', hpath'.trans hpath⟩
    · rintro id _ s₁ hg ⟨rfl, htail, hidle₁, hawaits⟩
      have hhome : s₁.publisher.IsHome id := by
        obtain ⟨r, -, hr, -⟩ := hawaits
        exact Publisher.IsItems.isHome ⟨r, hr⟩
      refine Works.bind (Works.spawn (.item site.path id _) ⟨hawaits, sites_streamedItemJob hhome⟩
        (Q := fun _ hand' s' => hand' = hand ∧ s'.publisher.Tail stream id ∧ s'.Idle stream)
        fun hsame htasks => ⟨rfl, hsame.tail htail, fun f hf => ?_⟩) ?_
      · rw [htasks] at hf
        rcases List.mem_append.1 hf with hf | hf
        · exact hidle₁ f hf
        · exact absurd (List.mem_singleton.1 hf) (by simp)
      · rintro - _ s₂ hg₂ ⟨rfl, htail₂, hidle₂⟩
        obtain ⟨st₁, hst₁, hpath₁, -⟩ := hg.streams stream st hst
        obtain ⟨st₂, hst₂, hpath₂, -⟩ := hg₂.streams stream st₁ hst₁
        refine ih (index + 1) ⟨st₂, hst₂, hpath₂.trans (hpath₁.trans hpath)⟩ ?_ (Or.inr htail₂) hidle₂
        exact (hg₂.isHome hhome).lt_size

/-- A new stream is added, without records and without a task that fetches its items. -/
theorem works_addStream {α : Type} {path : Path} {label : Option String} {hook : Option HookId}
    {k : StreamId → ExecM α} {Q : α → List RecordId → ExecStage → Prop}
    (h : ∀ stream s', Publisher.Grows 0 s.publisher s'.publisher → s'.publisher.Unused stream → s'.Idle stream →
      (∃ st, s'.publisher.stream? stream = some st ∧ st.path = path) → Works (k stream) hand s' Q) :
    Works (publish (fun p => p.addStream path label hook) >>= k) hand s Q := by
  refine Works.sound fun hs => ?_
  obtain ⟨hunused, hidle⟩ := hs.newStream path label hook
  refine Works.bind (Works.publish (f := fun p => p.addStream path label hook) (Move.stream path label hook)
    (Q := fun stream hand' s' => hand' = hand ∧ s'.publisher.Unused stream ∧ s'.Idle stream ∧
      ∃ st, s'.publisher.stream? stream = some st ∧ st.path = path)
    ⟨rfl, hunused, hidle, _, Publisher.stream?_addStream _ path label hook, rfl⟩) ?_
  rintro stream _ s' hg ⟨rfl, hunused', hidle', hst⟩
  exact h stream s' hg hunused' hidle' hst

theorem sites_itemJobs {P : RecordId → DeferMap → Prop} {itemType : TypeRef} {site : Site}
    (h : P site.record site.deferMap) (index : Nat) (items : List FieldValue) :
    ∀ job ∈ itemJobs itemType site index items, job.Sites P := by
  induction items generalizing index with
  | nil => simp [itemJobs]
  | cons item rest ih =>
    intro job hjob
    rcases List.mem_cons.1 hjob with rfl | hjob
    · exact ⟨h, h⟩
    · exact ih (index + 1) job hjob

theorem works_completeItems (c : ExecutionContext) (itemType : TypeRef) {site : Site} (items : List FieldValue)
    (hsite : s.publisher.Serves id site.record site.deferMap) :
    Works (completeItems c itemType site items) hand s fun out hand' s' =>
      hand' = hand ∧ out.Sites (s'.publisher.Serves id) := by
  unfold completeItems
  refine Works.quiet_bind (quiet_streamUsage _ _ _) fun outcome s₁ hp ht _ => ?_
  rw [← hp] at hsite
  split
  · exact Works.quiet_bind (quiet_noteClosed _) fun _ s₂ _ _ _ => Works.pure ⟨rfl, trivial⟩
  · rename_i usage
    dsimp only
    have hjobs : ∀ (s' : ExecStage) (count : Nat), Publisher.Grows 0 s₁.publisher s'.publisher →
        (Progress.go (.gather .list false ((itemJobs itemType site 0 (items.take count)).map .running))).Sites
          (s'.publisher.Serves id) := by
      intro s' count hg
      exact Job.sites_gather .list false (sites_itemJobs (hg.serves hsite) 0 _)
    split
    · rename_i u item rest hdrop
      refine works_addStream fun stream s₂ hg₂ hunused hidle hst => ?_
      have hparent : site.record.index < s₂.publisher.records.size := by
        rw [hsite.record]
        exact (hg₂.isHome hsite.home).lt_size
      refine Works.bind (works_spawnItems itemType u _ _ hst hparent (Or.inl ⟨hunused, ?_⟩) hidle) ?_
      · rw [hdrop]
        exact List.cons_ne_nil _ _
      · rintro last _ s₃ hg₃ ⟨rfl, htail, hidle₃⟩
        refine Works.bind (Works.publishUnit (Move.final htail hidle₃) (Q := fun _ hand' _ => hand' = _) rfl) ?_
        rintro - _ s₄ hg₄ rfl
        exact Works.pure ⟨rfl, hjobs s₄ _ (hg₂.trans (hg₃.trans hg₄))⟩
    · exact Works.pure ⟨rfl, hjobs s₁ _ (Publisher.Grows.refl _)⟩

theorem works_completeStream (c : ExecutionContext) (itemType : TypeRef) {site : Site} (source : ItemStream)
    (hsite : s.publisher.Serves id site.record site.deferMap) :
    Works (completeStream c itemType site source) hand s fun out hand' s' =>
      hand' = hand ∧ out.Sites (s'.publisher.Serves id) := by
  unfold completeStream
  refine Works.quiet_bind (quiet_streamUsage _ _ _) fun outcome s₁ hp _ _ => ?_
  split
  · exact Works.quiet_bind (quiet_noteClosed _) fun _ s₂ _ _ _ => Works.pure ⟨rfl, trivial⟩
  · refine Works.pure ⟨rfl, ?_⟩
    rw [hp]
    exact ⟨hsite, trivial⟩

theorem works_completeList (c : ExecutionContext) (itemType : TypeRef) {site : Site} (value : FieldValue)
    (hsite : s.publisher.Serves id site.record site.deferMap) :
    Works (completeList c itemType site value) hand s fun out hand' s' =>
      hand' = hand ∧ out.Sites (s'.publisher.Serves id) := by
  unfold completeList
  split
  · exact works_completeStream c itemType _ hsite
  · exact works_completeItems c itemType _ hsite
  · exact works_completeItems c itemType _ hsite
  · exact Works.pure ⟨rfl, trivial⟩

theorem works_spawnFetcher (itemType : TypeRef) {site : Site} (usage : StreamUsage) (source : ItemStream)
    (index : Nat) (hsite : s.publisher.Serves id site.record site.deferMap) :
    Works (spawnFetcher itemType site usage source index) hand s fun _ hand' _ => hand' = hand := by
  unfold spawnFetcher
  refine Works.quiet_bind (Quiet.modifyGet fun s => ⟨rfl, rfl, rfl⟩) fun hook s₁ hp _ _ => ?_
  rw [← hp] at hsite
  refine works_addStream fun stream s₂ hg₂ hunused hidle hst => ?_
  obtain ⟨st, hst, hpath⟩ := hst
  have hparent : site.record.index < s₂.publisher.records.size := by
    rw [hsite.record]
    exact (hg₂.isHome hsite.home).lt_size
  refine Works.sound fun hs => ?_
  have ha := Publisher.Adds.addItems hs.publisher.linked stream (site.path.index index) hparent
  refine Works.bind (Works.publish (Move.items hparent ⟨st, hst, index, by rw [hpath]⟩ (Or.inl hunused) hidle)
    (Q := fun id hand' s' => hand' = id :: hand ∧ s'.publisher.Tail stream id)
    ⟨rfl, ha.tail rfl rfl site.record (Or.inl hunused)⟩) ?_
  rintro id _ s₃ hg₃ ⟨rfl, htail⟩
  obtain ⟨st', hst', hpath', -⟩ := hg₃.streams stream st hst
  exact Works.spawn (.fetch ⟨stream, hook, source.disarm, itemType, usage.group, site.info, site.path, index, id⟩)
    ⟨htail, st', hst', hpath'.trans hpath⟩ fun _ _ => rfl

/-! ### Values -/

theorem works_completeNamed (c : ExecutionContext) (typeName : String) {site : Site} (value : FieldValue)
    (hsite : s.publisher.Serves id site.record site.deferMap) :
    Works (completeNamed c typeName site value) hand s fun out hand' s' =>
      hand' = hand ∧ out.Sites (s'.publisher.Serves id) := by
  have hsingle : ∀ {k : Except Error Json → ExecM Progress},
      (∀ outcome (s' : ExecStage), s'.publisher.Serves id site.record site.deferMap →
        Works (k outcome) hand s' fun out hand' s'' => hand' = hand ∧ out.Sites (s''.publisher.Serves id)) →
      Works (singleValue value typeName >>= k) hand s fun out hand' s' =>
        hand' = hand ∧ out.Sites (s'.publisher.Serves id) := by
    intro k hk
    refine Works.quiet_bind (quiet_singleValue _ _) fun outcome s' hp _ _ => hk outcome s' ?_
    rw [hp]
    exact hsite
  unfold completeNamed
  split
  · exact Works.quiet_bind (quiet_completeLeaf _ _ _) fun _ s' _ _ _ => Works.pure ⟨rfl, trivial⟩
  · exact Works.quiet_bind (quiet_completeLeaf _ _ _) fun _ s' _ _ _ => Works.pure ⟨rfl, trivial⟩
  · refine hsingle fun outcome s' hsite' => ?_
    split
    · exact Works.pure ⟨rfl, trivial⟩
    · split
      · exact Works.pure ⟨rfl, trivial⟩
      · exact works_completeObject c _ _ hsite'
  · refine hsingle fun outcome s' hsite' => ?_
    split
    · exact Works.pure ⟨rfl, trivial⟩
    · split
      · exact Works.pure ⟨rfl, trivial⟩
      · exact works_completeObject c _ _ hsite'
  · refine hsingle fun outcome s' hsite' => ?_
    split
    · exact Works.pure ⟨rfl, trivial⟩
    · exact works_completeObject c _ _ hsite'
  · exact Works.quiet_bind (quiet_noteClosed _) fun _ s' _ _ _ => Works.pure ⟨rfl, trivial⟩

theorem works_completeValue (c : ExecutionContext) (type : TypeRef) {site : Site} (value : FieldValue)
    (hsite : s.publisher.Serves id site.record site.deferMap) :
    Works (completeValue c type site value) hand s fun out hand' s' =>
      hand' = hand ∧ out.Sites (s'.publisher.Serves id) := by
  unfold completeValue
  split
  · split
    · refine Works.quiet_bind (Quiet.modify fun s => noteCall_beside s _) fun _ s' hp _ _ => Works.pure ⟨rfl, ?_⟩
      rw [hp]
      exact hsite
    · exact Works.pure ⟨rfl, hsite⟩
  · exact Works.pure ⟨rfl, hsite⟩
  · split
    · exact Works.pure ⟨rfl, trivial⟩
    · exact works_completeList c _ _ hsite
  · split
    · exact Works.pure ⟨rfl, trivial⟩
    · exact works_completeNamed c _ _ hsite

end GraphQL
