import GraphQL.Proofs.Execution.Alongside

/-!
# Completion alongside

Values are completed alike in an execution and in a variation of it.  Where fields are collected, the numbers that are handed
out differ, but each new use of `@defer` stands in a target whose record is known in both, and so do the targets of each new
set: a strict variation always goes on (`alongside_addFragments`, `alongside_addFieldSets`).
-/

namespace GraphQL

open Execution

variable {c : ExecutionContext} {w : Recollections c} {v : Variation}

/-- What a step comes to in both. -/
inductive Progress.Counterpart (w : Recollections c) : Progress → Progress → Prop
  | done (outcome : Except Error Json) : Counterpart w (.done outcome) (.done outcome)
  | go {job job'} (h : Job.Counterpart w job job') : Counterpart w (.go job) (.go job')

/-! ### Errors -/

section Errors

variable {m m' : DeferMap} {g g' : FieldGroup} (h : g.Counterpart w m m' g')
include h

theorem FieldGroup.Counterpart.node_eq : g.first.node = g'.first.node := by
  obtain ⟨R, -, hcorresponds, -⟩ := h.corresponds
  exact hcorresponds.first

/-- Errors are located at the same places. -/
theorem FieldGroup.Counterpart.locations_eq : g.locations = g'.locations := by
  obtain ⟨R, -, hcorresponds, -⟩ := h.corresponds
  exact congrArg (List.map FieldOf.location) hcorresponds.nodes

theorem FieldGroup.Counterpart.locate_eq (e : Error) (path : Path) : e.locate g path = e.locate g' path := by
  unfold Error.locate
  rw [h.locations_eq]

theorem FieldGroup.Counterpart.toErrorAt_eq (e : CompletionError) : e.toErrorAt g = e.toErrorAt g' := by
  unfold CompletionError.toErrorAt
  rw [h.locations_eq]

end Errors

theorem Site.Counterpart.same {site site' : Site} (h : site.Counterpart w site') :
    site'.info = site.info ∧ site'.path = site.path ∧ site'.record = site.record := by
  obtain ⟨-⟩ := h
  exact ⟨rfl, rfl, rfl⟩

theorem Site.Counterpart.groups {site site' : Site} (h : site.Counterpart w site') :
    site.group.Counterpart w site.deferMap site'.deferMap site'.group := by
  obtain ⟨h⟩ := h
  exact h

theorem Site.Counterpart.runtimeType_eq {site site' : Site} (h : site.Counterpart w site') (abstractType : String)
    (value : Json) : runtimeType c abstractType value site = runtimeType c abstractType value site' := by
  obtain ⟨hgroup⟩ := h
  unfold runtimeType
  simp only [hgroup.toErrorAt_eq]

/-! ### Fields -/

theorem alongside_call (r : Resolver) (input : ResolverInput) :
    Alongside w (call r input) (call r input) fun w' a a' => w' = w ∧ a = a' := by
  unfold call
  refine .ite Iff.rfl (fun _ => .pure ⟨rfl, rfl⟩) fun _ => ?_
  refine .same (alongside_change fun s inbox work memory => ?_) fun _ => .pure ⟨rfl, rfl⟩
  exact Stage.noteOpened_dressed (s.note _) inbox work memory _

theorem alongside_resolveField (parent : Json) (field : Field) (definition : FieldDef) (info : FieldInfo) :
    Alongside w (resolveField c parent field definition info) (resolveField c parent field definition info) fun w' a a' =>
      w' = w ∧ a = a' := by
  unfold resolveField
  cases argumentValues c.schema definition.arguments field.arguments c.vars with
  | error e => exact .pure ⟨rfl, rfl⟩
  | ok arguments =>
    refine .ite Iff.rfl (fun _ => .pure ⟨rfl, rfl⟩) fun _ => ?_
    cases c.resolvers.find? info.parentType info.fieldName with
    | none => exact .pure ⟨rfl, rfl⟩
    | some resolver =>
      cases resolver with
      | property => exact .pure ⟨rfl, rfl⟩
      | resolver r => exact .same (alongside_call r _) fun _ => .pure ⟨rfl, rfl⟩

theorem alongside_fieldJob {o o' : ObjectFields} (ho : o.Counterpart w o') (key : String) {g g' : FieldGroup}
    (hg : g.Counterpart w o.deferMap o'.deferMap g') :
    Alongside w (fieldJob c o key g) (fieldJob c o' key g') fun w' j j' => w' = w ∧ Option.Rel (Job.Counterpart w) j j' := by
  obtain ⟨-⟩ := ho
  unfold fieldJob
  dsimp only
  rw [hg.node_eq]
  cases c.schema.field? o.typeName g'.first.node.name.value with
  | none => exact .pure ⟨rfl, .none⟩
  | some definition =>
    have hsite : Site.Counterpart w ⟨g, ⟨g'.first.node.name.value, o.typeName, definition.type.text, o.path.key key⟩,
        o.path.key key, o.record, o.deferMap⟩ _ := .mk hg
    refine .same (alongside_resolveField _ _ _ _) fun outcome => ?_
    cases outcome with
    | ok value => exact .pure ⟨rfl, .some (.field hsite (.complete hsite))⟩
    | error e => exact .pure ⟨rfl, .some (.field hsite .failed)⟩

/-- Jobs that stand for each other, under the same keys. -/
theorem alongside_fieldJobs {o o' : ObjectFields} (ho : o.Counterpart w o') {fields fields' : GroupedFieldSet}
    (hfields : fields.Counterpart w o.deferMap o'.deferMap fields') :
    Alongside w (fieldJobs c o fields) (fieldJobs c o' fields') fun w' jobs jobs' =>
      w' = w ∧ List.Forall₂ (fun j j' => j.1 = j'.1 ∧ Job.Counterpart w j.2 j'.2) jobs jobs' := by
  induction hfields with
  | nil => exact .pure ⟨rfl, .nil⟩
  | @cons field field' rest rest' hfield _ ih =>
    obtain ⟨key, g⟩ := field
    obtain ⟨key', g'⟩ := field'
    obtain ⟨rfl, hg⟩ := hfield
    refine (alongside_fieldJob ho key hg).bind ?_
    rintro w' job? job?' - ⟨rfl, hjob⟩
    cases hjob with
    | none => exact ih
    | some hjob =>
      refine ih.bind ?_
      rintro w' jobs jobs' - ⟨rfl, hjobs⟩
      exact .pure ⟨rfl, .cons ⟨rfl, hjob⟩ hjobs⟩

theorem alongside_selectFields {o o' : ObjectFields} (ho : o.Counterpart w o') :
    Alongside w (selectFields c o) (selectFields c o') fun w' j j' => w' = w ∧ Job.Counterpart w j j' := by
  have hfields : o.fields.Counterpart w o.deferMap o'.deferMap o'.fields := by
    obtain ⟨h⟩ := ho
    exact h
  refine (alongside_fieldJobs ho hfields).bind ?_
  rintro w' jobs jobs' - ⟨rfl, hjobs⟩
  refine .pure ⟨rfl, ?_⟩
  rw [map_eq_of_forall₂ (fun _ _ h => h.1) hjobs]
  exact .gather (List.rel_map (fun _ _ h => .running h.2) hjobs)

theorem alongside_absorb (type : TypeRef) {site site' : Site} (hsite : site.Counterpart w site') (raw : Error) :
    Alongside w (absorb type site raw) (absorb type site' raw) fun w' a a' => w' = w ∧ a = a' := by
  obtain ⟨hgroup⟩ := hsite
  unfold absorb
  dsimp only
  rw [hgroup.locate_eq]
  refine .ite Iff.rfl (fun _ => .pure ⟨rfl, rfl⟩) fun _ => ?_
  refine .same (alongside_publishUnit fun p inbox => p.modifyRecord_withInbox inbox _ _) fun _ => ?_
  exact .same (alongside_publishAndClose fun p inbox => p.filter_withInbox inbox _ _) fun _ => .pure ⟨rfl, rfl⟩

/-! ### Deferred fragments -/

/-- A new set has a target, and all its targets have records. -/
theorem NewFieldSet.Counterpart.isRooted {m m' : DeferMap} {set set' : NewFieldSet} (h : set.Counterpart w m m' set') :
    set'.isRooted m' = true := by
  have hall : ∀ t' ∈ set'.targets.targets, ∃ usage, t' = .deferred usage ∧ (m'.get? usage.id).isSome := by
    intro t' ht'
    obtain ⟨t, -, hbinds⟩ := exists_of_forall₂ h.targets.flip ht'
    cases hbinds with
    | initial => exact absurd ht' h.placed.initial
    | deferred _ hget => exact ⟨_, rfl, by rw [hget]; rfl⟩
  unfold NewFieldSet.isRooted
  rw [Bool.and_eq_true, List.all_eq_true]
  refine ⟨by simpa using h.placed.targets, fun t' ht' => ?_⟩
  obtain ⟨usage, rfl, hsome⟩ := hall t' ht'
  exact hsome

theorem addFragments_cons (path : Path) (record : RecordId) (usage : DeferUsage) (rest : List DeferUsage) (m : DeferMap) :
    addFragments path record (usage :: rest) m = addFragments path record [usage] m >>= addFragments path record rest := by
  unfold addFragments
  rw [List.foldlM_cons, List.foldlM_cons]
  simp

theorem addFragments_singleton (path : Path) (record : RecordId) (usage : DeferUsage) (m : DeferMap) :
    addFragments path record [usage] m = do
      let id ← publish fun p => p.addFragment path usage.label ((usage.ancestors.head?.bind m.get?).getD record)
      return m.insert usage.id id := by
  unfold addFragments
  rw [List.foldlM_cons]
  simp

/-- A use of `@defer` with the same record around it in both executions stands in something that has a record. -/
theorem alongside_addFragment {S : Target → Target → Prop} (hS : Target.Matching S) (path : Path) (record : RecordId)
    {reached : List Target} {u u' : DeferUsage} (halike : u.Alike S u') {t : Target} (ht : t ∈ reached)
    (hancestors : u.ancestors = t.id :: t.ancestors) (hne : u.id ≠ 0) {m m' : DeferMap}
    (hpositive : m.Positive ∧ m'.Positive) (hcovers : m.Covers m' S reached) :
    Alongside w (addFragments path record [u] m)
      (do
        v.insist (u'.isRooted m')
        addFragments path record [u'] m') fun w' n n' =>
      w' = w ∧ (n.Positive ∧ n'.Positive) ∧ n.Covers n' S (reached ++ [.deferred u]) := by
  obtain ⟨t', ht', hbinds⟩ := hcovers t ht
  obtain ⟨hlabel, hu, t₁, t₁', h₁, ha, ha'⟩ := halike
  have hid : t'.id = t₁'.id := (hS.id_eq ht' h₁).1 (List.cons.inj (hancestors.symm.trans ha)).1
  have hne' : u'.id ≠ 0 := by
    have hmem : t₁'.id ∈ u'.ancestors := by rw [ha']; exact List.mem_cons_self
    exact Nat.ne_of_gt (Nat.lt_of_le_of_lt (Nat.zero_le _) ((hS.nested hu).2 _ hmem))
  have haround : u.ancestors.head? = some t.id := by rw [hancestors]; rfl
  have haround' : u'.ancestors.head? = some t'.id := by rw [ha', hid]; rfl
  have hrooted : u'.isRooted m' = true := by
    unfold DeferUsage.isRooted
    rw [haround']
    cases hbinds with
    | initial => rfl
    | deferred _ h => simp [Target.id, h]
  have hparent : (u.ancestors.head?.bind m.get?).getD record = (u'.ancestors.head?.bind m'.get?).getD record := by
    rw [haround, haround']
    cases hbinds with
    | initial =>
      show (m.get? 0).getD record = (m'.get? 0).getD record
      rw [hpositive.1, hpositive.2]
    | @deferred q q' _ h h' =>
      show (m.get? q.id).getD record = (m'.get? q'.id).getD record
      rw [h, h']
  rw [v.insist_eq hrooted, pure_bind, addFragments_singleton, addFragments_singleton, hlabel, hparent]
  refine .same (alongside_publish fun p inbox => p.addFragment_withInbox inbox _ _ _) fun id => ?_
  exact .pure ⟨rfl, ⟨hpositive.1.insert hne id, hpositive.2.insert hne' id⟩, hcovers.insert hS hu id⟩

theorem alongside_addFragments {S : Target → Target → Prop} (hS : Target.Matching S) (path : Path) (record : RecordId)
    {reached : List Target} {usages usages' : List DeferUsage} (hchained : Chained reached usages)
    (husages : List.Forall₂ (DeferUsage.Alike S) usages usages') {m m' : DeferMap} (hpositive : m.Positive ∧ m'.Positive)
    (hcovers : m.Covers m' S reached) :
    Alongside w (addFragments path record usages m) (v.addFragments path record usages' m') fun w' n n' =>
      w' = w ∧ (n.Positive ∧ n'.Positive) ∧ n.Covers n' S (reached ++ usages.map .deferred) := by
  unfold Variation.addFragments
  induction husages generalizing reached m m' with
  | nil =>
    rw [List.map_nil, List.append_nil]
    exact .pure ⟨rfl, hpositive, hcovers⟩
  | @cons u u' rest rest' halike _ ih =>
    obtain ⟨⟨t, ht, hancestors⟩, hne, -, hchained⟩ := hchained
    rw [addFragments_cons, List.foldlM_cons]
    refine (alongside_addFragment hS path record halike ht hancestors hne hpositive hcovers).bind ?_
    rintro w' n n' - ⟨rfl, hpositive', hcovers'⟩
    have hrest := ih hchained hpositive' hcovers'
    rw [List.append_assoc] at hrest
    exact hrest

/-- Sets that stand for each other are reported for the same fragments, and each for one at least. -/
theorem alongside_addFieldSets (path : Path) {m m' : DeferMap} {sets sets' : List NewFieldSet}
    (hsets : List.Forall₂ (NewFieldSet.Counterpart w m m') sets sets') :
    Alongside w (addFieldSets path m sets) (v.addFieldSets path m' sets') fun w' out out' =>
      w' = w ∧ List.Forall₂ (fun e e' => e.1.Counterpart w m m' e'.1 ∧ e.2 = e'.2) out out' := by
  have hrooted : sets'.all (·.isRooted m') = true := by
    rw [List.all_eq_true]
    intro set' hset'
    obtain ⟨set, -, hset⟩ := exists_of_forall₂ hsets.flip hset'
    exact hset.isRooted
  unfold Variation.addFieldSets
  rw [v.insist_eq hrooted, pure_bind]
  clear hrooted
  unfold addFieldSets
  induction hsets with
  | nil => exact .pure ⟨rfl, .nil⟩
  | cons hset _ ih =>
    rw [List.mapM_cons, List.mapM_cons, TargetSet.fragments_eq hset.targets]
    refine Alongside.bind (Q := fun w' e e' => w' = w ∧ e.1.Counterpart w m m' e'.1 ∧ e.2 = e'.2) ?_ ?_
    · exact .same (alongside_publish fun p inbox => p.addFieldSet_withInbox inbox _ _) fun id => .pure ⟨rfl, hset, rfl⟩
    · rintro w' e e' - ⟨rfl, he⟩
      refine ih.bind ?_
      rintro w' out out' - ⟨rfl, hout⟩
      exact .pure ⟨rfl, .cons he hout⟩

theorem alongside_spawnFieldSets {o o' : ObjectFields} (ho : o.Counterpart w o') {sets sets' : List (NewFieldSet × RecordId)}
    (hsets : List.Forall₂ (fun e e' => e.1.Counterpart w o.deferMap o'.deferMap e'.1 ∧ e.2 = e'.2) sets sets') :
    Alongside w (spawnFieldSets c o sets) (spawnFieldSets c o' sets') fun w' a a' => w' = w ∧ a = a' := by
  induction hsets with
  | nil => exact .pure ⟨rfl, rfl⟩
  | @cons e e' rest rest' he _ ih =>
    obtain ⟨set, id⟩ := e
    obtain ⟨set', id'⟩ := e'
    obtain ⟨hset, hid⟩ := he
    dsimp only at hset hid
    subst hid
    have hfields : ObjectFields.Counterpart w { o with fields := set.fields, record := id }
        { o' with fields := set'.fields, record := id } := by
      obtain ⟨-⟩ := ho
      exact .mk hset.fields
    have hpath : o'.path = o.path := by
      obtain ⟨-⟩ := ho
      rfl
    unfold spawnFieldSets
    dsimp only
    rw [hset.initiatesDefer]
    have hspawn : ∀ job job', Job.Counterpart w job job' → Alongside w
        (do spawn (.fieldSet o.path id job); spawnFieldSets c o rest)
        (do spawn (.fieldSet o'.path id job'); spawnFieldSets c o' rest') fun w' a a' => w' = w ∧ a = a' :=
      fun job job' hjob => .same (alongside_spawn (by rw [hpath]; exact .fieldSet hjob)) fun _ => ih
    refine .ite Iff.rfl (fun _ => ?_) fun _ => ?_
    · rw [pure_bind, pure_bind]
      exact hspawn _ _ (.select hfields)
    · refine (alongside_selectFields hfields).bind ?_
      rintro w' job job' - ⟨rfl, hjob⟩
      exact hspawn job job' hjob

/-! ### Objects -/

/-- What follows once fields are collected: what is deferred is reported, and fields are resolved. -/
theorem alongside_report {S : Target → Target → Prop} {reached : List Target} {collected collected' : CollectedFields}
    (h : collected.Counterpart w S reached collected') {m m' : DeferMap} (hpositive : m.Positive ∧ m'.Positive)
    (hcovers : m.Covers m' S reached) (path : Path) (record : RecordId) {α β : Type}
    {k : DeferMap → List (NewFieldSet × RecordId) → ExecM α} {k' : DeferMap → List (NewFieldSet × RecordId) → ExecM β}
    {Q : Recollections c → α → β → Prop}
    (hk : ∀ n n' sets sets', collected.fields.Counterpart w n n' collected'.fields →
      List.Forall₂ (fun e e' => e.1.Counterpart w n n' e'.1 ∧ e.2 = e'.2) sets sets' → Alongside w (k n sets) (k' n' sets') Q) :
    Alongside w
      (do
        let n ← addFragments path record collected.newUsages m
        let sets ← addFieldSets path n collected.newSets
        k n sets)
      (do
        let n ← v.addFragments path record collected'.newUsages m'
        let sets ← v.addFieldSets path n collected'.newSets
        k' n sets) Q := by
  refine (alongside_addFragments h.matching path record h.chained h.corresponds.newUsages hpositive hcovers).bind ?_
  rintro w' n n' - ⟨rfl, hpositive', hcovers'⟩
  refine (alongside_addFieldSets path (h.newSets hcovers' hpositive')).bind ?_
  rintro w' sets sets' - ⟨rfl, hsets⟩
  refine hk n n' sets sets' (h.fields hcovers' hpositive' h.corresponds.fields ?_ ?_) hsets
  · exact List.subset_append_left _ _
  · exact List.subset_append_left _ _

theorem alongside_completeObject (typeName : String) {site site' : Site} (hsite : site.Counterpart w site') (value : Json) :
    Alongside w (completeObject c typeName site value) (v.completeObject c typeName site' value) Progress.Counterpart := by
  obtain ⟨hgroup⟩ := hsite
  unfold completeObject Variation.completeObject
  dsimp only
  refine .ite Iff.rfl (fun _ => ?_) fun _ => v.alongside_forget fun w₁ hlater₁ => ?_
  · rw [hgroup.toErrorAt_eq]
    exact .pure (.done _)
  · have hgroup := hgroup.later hlater₁
    refine v.alongside_compare hgroup.varied (.get fun s s' hs => ?_)
    obtain ⟨r, hr, hmemory, hcollects, hgroups⟩ := w₁.plain.collectSubfields (P := True) hgroup.plain typeName
    obtain ⟨r', hr', hmemory', hcollects', hgroups'⟩ := w₁.varied.collectSubfields (P := False) hgroup.varied typeName
    have hlater₂ : w₁.Later ⟨r, r'⟩ := ⟨hr, hr'⟩
    have hremember := hs.remember hlater₂
    rw [hmemory, hmemory'] at hremember
    rw [hs.memory_eq.1, hs.memory_eq.2]
    refine (Alongside.set hlater₂ hremember).bind ?_
    rintro w₂ - - - rfl
    rcases hcollects.counterpart hcollects' (hgroup.later hlater₂) hgroups hgroups' with
      ⟨e, hout, hout'⟩ | ⟨collected, collected', S, hout, hout', hfound, hcovers⟩
    · rw [hout, hout']
      exact .pure (.done _)
    · rw [hout, hout']
      refine alongside_report hfound hgroup.positive hcovers _ _ fun n n' sets sets' hfields hsets => ?_
      have ho : ObjectFields.Counterpart _ ⟨typeName, value, site.path, collected.fields, site.record, n⟩ _ := .mk hfields
      refine (alongside_selectFields ho).bind ?_
      rintro w₃ job job' - ⟨rfl, hjob⟩
      exact .same (alongside_spawnFieldSets ho hsets) fun _ => .pure (.go hjob)

/-! ### Leaves and lists -/

theorem alongside_singleValue (value : FieldValue) (typeName : String) :
    Alongside w (singleValue value typeName) (singleValue value typeName) fun w' a a' => w' = w ∧ a = a' := by
  unfold singleValue
  split
  · exact .pure ⟨rfl, rfl⟩
  · exact .pure ⟨rfl, rfl⟩
  · exact .same (alongside_noteClosed _) fun _ => .pure ⟨rfl, rfl⟩

theorem alongside_completeLeaf (typeName : String) (value : FieldValue) :
    Alongside w (completeLeaf c typeName value) (completeLeaf c typeName value) fun w' a a' => w' = w ∧ a = a' := by
  refine .same (alongside_singleValue value typeName) fun outcome => ?_
  cases outcome with
  | error e => exact .pure ⟨rfl, rfl⟩
  | ok single =>
    dsimp only
    cases c.schema.serializeLeaf typeName single with
    | error e => exact .pure ⟨rfl, rfl⟩
    | ok serialized => exact .ite Iff.rfl (fun _ => .pure ⟨rfl, rfl⟩) fun _ => .pure ⟨rfl, rfl⟩

theorem alongside_streamUsage {m m' : DeferMap} {g g' : FieldGroup} (hg : g.Counterpart w m m' g') (path : Path) :
    Alongside w (streamUsage c g path) (streamUsage c g' path) fun w' =>
      Outcome.Counterpart (Option.Rel (StreamUsage.Counterpart w')) := by
  intro s s' hs
  obtain ⟨outcome, r, hrun, hlater, hstreams, hgroup⟩ := w.plain.run_streamUsage (P := True) hg.plain path hs.memory_eq.1
  obtain ⟨outcome', r', hrun', hlater', hstreams', hgroup'⟩ :=
    w.varied.run_streamUsage (P := False) hg.varied path hs.memory_eq.2
  obtain ⟨R, -, hcorresponds, -⟩ := hg.corresponds
  have hboth : w.Later ⟨r, r'⟩ := ⟨hlater, hlater'⟩
  unfold AlongsideFrom
  rw [hrun, hrun']
  refine .some ⟨⟨r, r'⟩, hboth, hs.remember hboth, ?_⟩
  rcases ExecutionContext.streams_corresponds hcorresponds hstreams hstreams' with
    ⟨e, rfl, rfl⟩ | ⟨usage, usage', rfl, rfl, husage⟩
  · exact .error e
  · cases husage with
    | none => exact .ok .none
    | some h => exact .ok (.some (h.counterpart (hgroup _ rfl) (hgroup' _ rfl)))

/-- Items that are delivered with the list stand where the list stands. -/
theorem Site.Counterpart.item {site site' : Site} (h : site.Counterpart w site') (itemType : TypeRef) (index : Nat)
    (item : FieldValue) : Job.Counterpart w (itemJob itemType site index item) (itemJob itemType site' index item) := by
  obtain ⟨hgroup⟩ := h
  have hsite : Site.Counterpart w { site with path := site.path.index index } _ := .mk hgroup
  exact .field hsite (.complete hsite)

theorem Site.Counterpart.items {site site' : Site} (h : site.Counterpart w site') (itemType : TypeRef) (index : Nat)
    (items : List FieldValue) :
    List.Forall₂ (Job.Counterpart w) (itemJobs itemType site index items) (itemJobs itemType site' index items) := by
  induction items generalizing index with
  | nil => exact .nil
  | cons item rest ih => exact .cons (h.item itemType index item) (ih (index + 1))

/-- Items that are streamed stand in maps without fragments. -/
theorem FieldGroup.Counterpart.streamedItem {g g' : FieldGroup} (h : g.Counterpart w [] [] g') (itemType : TypeRef)
    (info : FieldInfo) (path : Path) (record : RecordId) (item : FieldValue) :
    Job.Counterpart w (streamedItemJob itemType g info path record item) (streamedItemJob itemType g' info path record item) := by
  have hsite : Site.Counterpart w ⟨g, info, path, record, []⟩ _ := .mk h
  exact .field hsite (.complete hsite)

theorem alongside_spawnItems (itemType : TypeRef) {site site' : Site} (hsite : site.Counterpart w site')
    {usage usage' : StreamUsage} (husage : usage.Counterpart w usage') (stream : StreamId) (parent : RecordId) (index : Nat)
    (items : List FieldValue) :
    Alongside w (spawnItems itemType site usage stream parent index items)
      (spawnItems itemType site' usage' stream parent index items) fun w' a a' => w' = w ∧ a = a' := by
  obtain ⟨hsite⟩ := hsite
  obtain ⟨husage⟩ := husage
  induction items generalizing parent index with
  | nil => exact .pure ⟨rfl, rfl⟩
  | cons item rest ih =>
    refine .same (alongside_publish fun p inbox => p.addItems_withInbox inbox _ _ _) fun id => ?_
    exact .same (alongside_spawn (.item (husage.streamedItem _ _ _ _ _))) fun _ => ih id (index + 1)

theorem alongside_completeItems (itemType : TypeRef) {site site' : Site} (hsite : site.Counterpart w site')
    (items : List FieldValue) :
    Alongside w (completeItems c itemType site items) (completeItems c itemType site' items) Progress.Counterpart := by
  obtain ⟨-, hpath, hrecord⟩ := hsite.same
  unfold completeItems
  rw [hpath, hrecord]
  refine (alongside_streamUsage hsite.groups site.path).bind ?_
  rintro w₁ _ _ hlater (⟨e⟩ | ⟨husage⟩)
  · exact .same (alongside_noteClosed _) fun _ => .pure (.done _)
  · have hsite₁ := hsite.later hlater
    have hfirst : ∀ count, Progress.Counterpart w₁
        (.go (.gather .list false ((itemJobs itemType site 0 (items.take count)).map .running)))
        (.go (.gather .list false ((itemJobs itemType site' 0 (items.take count)).map .running))) :=
      fun count => .go (.gathered (hsite₁.items itemType 0 _))
    cases husage with
    | none => exact .pure (hfirst _)
    | @some usage usage' husage =>
      have hcount : usage'.initialCount = usage.initialCount ∧ usage'.label = usage.label := by
        obtain ⟨-⟩ := husage
        exact ⟨rfl, rfl⟩
      dsimp only
      rw [hcount.1]
      cases items.drop usage.initialCount with
      | nil => exact .pure (hfirst _)
      | cons item rest =>
        dsimp only
        rw [hcount.2]
        refine .same (alongside_publish fun p inbox => p.addStream_withInbox inbox _ _ _) fun stream => ?_
        refine .same (alongside_spawnItems itemType hsite₁ husage stream _ _ _) fun last => ?_
        exact .same (alongside_publishUnit fun p inbox => p.modifyRecord_withInbox inbox _ _) fun _ => .pure (hfirst _)

theorem alongside_completeStream (itemType : TypeRef) {site site' : Site} (hsite : site.Counterpart w site')
    (source : ItemStream) :
    Alongside w (completeStream c itemType site source) (completeStream c itemType site' source) Progress.Counterpart := by
  unfold completeStream
  rw [hsite.same.2.1]
  refine (alongside_streamUsage hsite.groups site.path).bind ?_
  rintro w₁ _ _ hlater (⟨e⟩ | ⟨husage⟩)
  · exact .same (alongside_noteClosed _) fun _ => .pure (.done _)
  · exact .pure (.go (.iterate (hsite.later hlater) husage .nil))

/-- The rest of a stream is left to a task in both. -/
theorem alongside_spawnFetcher (itemType : TypeRef) {site site' : Site} (hsite : site.Counterpart w site')
    {usage usage' : StreamUsage} (husage : usage.Counterpart w usage') (source : ItemStream) (index : Nat) :
    Alongside w (spawnFetcher itemType site usage source index) (spawnFetcher itemType site' usage' source index)
      fun w' a a' => w' = w ∧ a = a' := by
  obtain ⟨-⟩ := hsite
  obtain ⟨husage⟩ := husage
  refine .same (alongside_blind fun _ _ _ _ => rfl) fun hook => ?_
  refine .same (alongside_publish fun p inbox => p.addStream_withInbox inbox _ _ _) fun stream => ?_
  refine .same (alongside_publish fun p inbox => p.addItems_withInbox inbox _ _ _) fun id => ?_
  exact alongside_spawn (.fetch ⟨stream, hook, source.disarm, itemType, usage.group, site.info, site.path, index, id⟩ husage)

theorem alongside_completeList (itemType : TypeRef) {site site' : Site} (hsite : site.Counterpart w site')
    (value : FieldValue) :
    Alongside w (completeList c itemType site value) (v.completeList c itemType site' value) Progress.Counterpart := by
  refine v.alongside_forget fun w₁ hlater => ?_
  have hsite₁ := hsite.later hlater
  refine v.alongside_compare hsite₁.groups.varied ?_
  unfold completeList
  split
  · exact alongside_completeStream itemType hsite₁ _
  · exact alongside_completeItems itemType hsite₁ _
  · exact alongside_completeItems itemType hsite₁ _
  · rw [hsite.same.1]
    exact .pure (.done _)

/-! ### Values -/

/-- An object is completed alike once its value is there. -/
theorem alongside_parent (value : FieldValue) (typeName : String) {k k' : Except Error Json → ExecM Progress}
    (hfail : ∀ e, k (.error e) = Pure.pure (.fail e)) (hfail' : ∀ e, k' (.error e) = Pure.pure (.fail e))
    (hk : ∀ parent, Alongside w (k (.ok parent)) (k' (.ok parent)) Progress.Counterpart) :
    Alongside w (singleValue value typeName >>= k) (singleValue value typeName >>= k') Progress.Counterpart := by
  refine .same (alongside_singleValue value typeName) fun outcome => ?_
  cases outcome with
  | error e =>
    rw [hfail, hfail']
    exact .pure (.done _)
  | ok parent => exact hk parent

theorem alongside_completeNamed (typeName : String) {site site' : Site} (hsite : site.Counterpart w site')
    (value : FieldValue) :
    Alongside w (completeNamed c typeName site value) (v.completeNamed c typeName site' value) Progress.Counterpart := by
  have hleaf : Alongside w (do return Progress.done (← completeLeaf c typeName value))
      (do return Progress.done (← completeLeaf c typeName value)) Progress.Counterpart :=
    .same (alongside_completeLeaf typeName value) fun _ => .pure (.done _)
  have hnone : Alongside w
      (do
        noteClosed value.openStreams
        return .fail (CompletionError.unexpectedOutputType typeName).toError)
      (do
        noteClosed value.openStreams
        return .fail (CompletionError.unexpectedOutputType typeName).toError) Progress.Counterpart :=
    .same (alongside_noteClosed _) fun _ => .pure (.done _)
  unfold completeNamed Variation.completeNamed
  cases hkind : c.schema.typeKind? typeName with
  | none =>
    unfold completeNamed
    rw [hkind]
    exact hnone
  | some kind =>
    cases kind with
    | interface | union =>
      refine alongside_parent value typeName (fun _ => rfl) (fun _ => rfl) fun parent => ?_
      dsimp only
      rw [hsite.runtimeType_eq]
      cases runtimeType c typeName parent site' with
      | error e => exact .pure (.done _)
      | ok name => exact alongside_completeObject name hsite parent
    | object =>
      exact alongside_parent value typeName (fun _ => rfl) (fun _ => rfl) fun parent =>
        alongside_completeObject typeName hsite parent
    | scalar | enum =>
      unfold completeNamed
      rw [hkind]
      exact hleaf
    | inputObject =>
      unfold completeNamed
      rw [hkind]
      exact hnone

/-- Values are completed alike. -/
theorem alongside_completeValue (type : TypeRef) {site site' : Site} (hsite : site.Counterpart w site') (value : FieldValue) :
    Alongside w (completeValue c type site value) (v.completeValue c type site' value) Progress.Counterpart := by
  have hrequired : ∀ inner, Alongside w (Pure.pure (.go (.nonNull site.info (.complete inner site value))))
      (Pure.pure (.go (.nonNull site'.info (.complete inner site' value)))) Progress.Counterpart := by
    intro inner
    rw [hsite.same.1]
    exact .pure (.go (.nonNull (.complete hsite)))
  have hlist := fun itemType => Alongside.ite (Iff.refl (value.isNull = true)) (fun _ => .pure (.done (.ok .null)))
    fun _ => alongside_completeList (v := v) (c := c) itemType hsite value
  have hnamed := fun typeName => Alongside.ite (Iff.refl (value.isNull = true)) (fun _ => .pure (.done (.ok .null)))
    fun _ => alongside_completeNamed (v := v) (c := c) typeName hsite value
  cases value with
  | later notice ticks outcome =>
    unfold Variation.completeValue completeValue
    cases notice with
    | none => exact .pure (.go (.await hsite))
    | some n =>
      exact .same (alongside_change fun s inbox work memory => Stage.noteCall_dressed s inbox work memory n) fun _ =>
        .pure (.go (.await hsite))
  | _ =>
    cases type with
    | nonNull inner => exact hrequired inner
    | list itemType => exact hlist itemType
    | named typeName => exact hnamed typeName

end GraphQL
