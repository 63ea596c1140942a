import GraphQL.Proofs.Collection.Sorting
import GraphQL.Proofs.Execution.StreamOrder

/-!
# Where deferred fragments come from

A record for which values are completed knows the fragments of all uses of `@defer` in which their fields were met
(`Publisher.Roots`).  A fragment inside another one comes after fragments only.  One that stands directly in the initial
result comes directly after the record, or the record is a set of its fields.  This goes on to the sets of fields that are
reported for a record (`Publisher.Roots.fieldSet`), because what is met only inside other targets of a set is masked.
-/

namespace GraphQL

namespace DeferMap

variable {m : DeferMap} {usage other : Nat} {id : RecordId}

theorem get?_insert : (m.insert usage id).get? other = if usage = other then some id else m.get? other := by
  unfold get? insert
  by_cases h : usage = other
  · simp [h]
  · simp [h]

end DeferMap

namespace Publisher

variable {p q : Publisher Task} {home fragment : RecordId} {reached : List Target} {m : DeferMap}

/-- Everything before the record is a fragment. -/
def AfterFragments (p : Publisher Task) (id : RecordId) : Prop := ∀ parent, id ∈ p.kids parent → p.IsFragment parent

/-- A set of fields belongs to the fragment; after any other record, the fragment comes directly. -/
def Near (p : Publisher Task) (home fragment : RecordId) : Prop :=
  p.BelongsTo home fragment ∨ ¬ p.IsFieldSet home ∧ ∀ parent, fragment ∈ p.kids parent → parent = home

/-- How the fragments of the uses of `@defer` among some targets stand to a record. -/
structure Roots (p : Publisher Task) (home : RecordId) (reached : List Target) (m : DeferMap) : Prop where
  zero : m.get? 0 = none
  initial : .initial ∈ reached → ¬ p.IsFieldSet home
  usages : ∀ u, .deferred u ∈ reached → u.id ≠ 0 ∧ 0 ∈ u.ancestors ∧ ∃ fragment, m.get? u.id = some fragment ∧
    p.IsFragment fragment ∧ (u.ancestors = [0] → p.Near home fragment) ∧
    (u.ancestors ≠ [0] → p.AfterFragments fragment)

/-- How the fragments of a group stand to the record for which its values are completed. -/
structure Rooted (p : Publisher Task) (home : RecordId) (group : FieldGroup) (m : DeferMap) : Prop where
  roots : p.Roots home group.reached m
  targets : ¬ p.IsFieldSet home → group.targets = .initial

/-! ### Grown publishers -/

/-- Old records have no new parents. -/
theorem Grows.mem_kids_old (h : Grows p.records.size p q) (hl : q.Linked) {id parent : RecordId}
    (hid : id.index < p.records.size) (hmem : id ∈ q.kids parent) : id ∈ p.kids parent := by
  obtain ⟨r, hr, hchild⟩ := mem_kids.1 hmem
  have hlt := (hl.children parent r hr id hchild).1
  exact h.old_kids hmem (Nat.lt_trans hlt hid) hid

theorem Grows.isFieldSet_old {n : Nat} (h : Grows n p q) {id : RecordId} (hid : id.index < p.records.size)
    (hset : q.IsFieldSet id) : p.IsFieldSet id := by
  obtain ⟨r', hr'⟩ := hset
  obtain ⟨r, hr, hg⟩ := h.old hr' hid
  cases hg with
  | fieldSet => exact ⟨_, hr⟩

theorem AfterFragments.grows (h : p.AfterFragments fragment) (hg : Grows p.records.size p q) (hl : q.Linked)
    (hid : fragment.index < p.records.size) : q.AfterFragments fragment :=
  fun parent hparent => hg.isFragment (h parent (hg.mem_kids_old hl hid hparent))

theorem Near.grows (h : p.Near home fragment) (hg : Grows p.records.size p q) (hl : q.Linked)
    (hhome : home.index < p.records.size) (hid : fragment.index < p.records.size) : q.Near home fragment :=
  h.imp (fun hbelongs => hg.belongsTo hbelongs) fun ⟨hset, hparents⟩ =>
    ⟨fun hset' => hset (hg.isFieldSet_old hhome hset'), fun parent hparent => hparents parent (hg.mem_kids_old hl hid hparent)⟩

theorem Roots.grows (h : p.Roots home reached m) (hg : Grows p.records.size p q) (hl : q.Linked)
    (hhome : home.index < p.records.size) : q.Roots home reached m := by
  refine ⟨h.zero, fun hinitial hset => h.initial hinitial (hg.isFieldSet_old hhome hset), fun u hu => ?_⟩
  obtain ⟨hne, hzero, fragment, hget, hfragment, hnear, hafter⟩ := h.usages u hu
  exact ⟨hne, hzero, fragment, hget, hg.isFragment hfragment,
    fun heq => (hnear heq).grows hg hl hhome hfragment.lt_size, fun heq => (hafter heq).grows hg hl hfragment.lt_size⟩

theorem Rooted.grows {group : FieldGroup} (h : p.Rooted home group m) (hg : Grows p.records.size p q) (hl : q.Linked)
    (hhome : home.index < p.records.size) : q.Rooted home group m :=
  ⟨h.roots.grows hg hl hhome, fun hset => h.targets fun hset' => hset (hg.isFieldSet hset')⟩

theorem Roots.sub {some : List Target} (h : p.Roots home reached m) (hsub : some ⊆ reached) : p.Roots home some m :=
  ⟨h.zero, fun hinitial => h.initial (hsub hinitial), fun u hu => h.usages u (hsub hu)⟩

/-- Nothing is known of the initial result alone. -/
theorem Roots.start (h : ¬ p.IsFieldSet home) {reached : List Target} (hreached : ∀ t ∈ reached, t = .initial) :
    p.Roots home reached [] :=
  ⟨rfl, fun _ => h, fun u hu => absurd (hreached _ hu) (by simp)⟩

/-! ### New records -/

/-- Another fragment is reported. -/
theorem Roots.addFragment (h : p.Roots home reached m) (hp : p.Sound) (hhome : home.index < p.records.size) (path : Path)
    {u : DeferUsage} (haround : ∃ t ∈ reached, u.ancestors = t.id :: t.ancestors) (hne : u.id ≠ 0)
    (hfresh : ∀ v, .deferred v ∈ reached → v.id ≠ u.id) :
    (p.addFragment path u.label ((u.ancestors.head?.bind m.get?).getD home)).1.Roots home (reached ++ [.deferred u])
      (m.insert u.id (p.addFragment path u.label ((u.ancestors.head?.bind m.get?).getD home)).2) := by
  obtain ⟨t, ht, hancestors⟩ := haround
  -- the record after which the fragment comes
  have hparent : ∃ parent, (u.ancestors.head?.bind m.get?).getD home = parent ∧ parent.index < p.records.size ∧
      0 ∈ u.ancestors ∧ (u.ancestors = [0] → ¬ p.IsFieldSet home ∧ p.attachedTo parent = [home]) ∧
      (u.ancestors ≠ [0] → p.attachedTo parent = [parent] ∧ p.IsFragment parent) := by
    rw [hancestors]
    cases t with
    | initial =>
      have hset := h.initial ht
      refine ⟨home, ?_, hhome, List.mem_cons_self, fun _ => ⟨hset, ?_⟩, fun hneq => absurd rfl hneq⟩
      · show ((Option.some 0).bind m.get?).getD home = home
        rw [Option.bind_some, h.zero]
        rfl
      · unfold attachedTo
        split
        · exact absurd ⟨_, ‹_›⟩ hset
        · rfl
    | deferred v =>
      obtain ⟨hv, hzero, parent, hget, hfragment, -, -⟩ := h.usages v ht
      refine ⟨parent, ?_, hfragment.lt_size, List.mem_cons_of_mem _ hzero, fun heq => ?_, fun _ => ⟨?_, hfragment⟩⟩
      · show ((Option.some v.id).bind m.get?).getD home = parent
        rw [Option.bind_some, hget]
        rfl
      · exact absurd (List.cons.inj heq).1 hv
      · obtain ⟨r, hr⟩ := hfragment
        unfold attachedTo
        rw [hr]
  obtain ⟨parent, heq, hlt, hzero, hdirect, hinside⟩ := hparent
  rw [heq]
  have hg := Grows.addFragment p path u.label parent
  have hl := (hp.addFragment path u.label hlt).linked
  have hold := h.grows hg hl hhome
  have hkids : ∀ id, (⟨p.records.size⟩ : RecordId) ∈ (p.addFragment path u.label parent).1.kids id ↔
      id ∈ p.attachedTo parent :=
    fun id => mem_kids_push_addChild hp.linked hlt _ rfl id
  have hnew := (Adds.addFragment hp.linked path u.label hlt).new
  refine ⟨?_, fun hinitial => ?_, fun v hv => ?_⟩
  · rw [DeferMap.get?_insert, if_neg hne]
    exact h.zero
  · rcases List.mem_append.1 hinitial with hinitial | hinitial
    · exact hold.initial hinitial
    · exact absurd (List.mem_singleton.1 hinitial) (by simp)
  · rcases List.mem_append.1 hv with hv | hv
    · rw [DeferMap.get?_insert, if_neg fun heq => hfresh v hv heq.symm]
      exact hold.usages v hv
    · cases List.mem_singleton.1 hv
      refine ⟨hne, hzero, ⟨p.records.size⟩, ?_, ⟨_, hnew⟩, fun heq => .inr ?_, fun hneq parent' hparent' => ?_⟩
      · rw [DeferMap.get?_insert, if_pos rfl]
        rfl
      · obtain ⟨hset, hattached⟩ := hdirect heq
        refine ⟨fun hset' => hset (hg.isFieldSet_old hhome hset'), fun parent' hparent' => ?_⟩
        rw [hkids, hattached] at hparent'
        exact List.mem_singleton.1 hparent'
      · obtain ⟨hattached, hfragment⟩ := hinside hneq
        rw [hkids, hattached] at hparent'
        rw [List.mem_singleton.1 hparent']
        exact hg.isFragment hfragment

/-- The fragments of a set of targets. -/
def fragmentsIn (m : DeferMap) (targets : TargetSet) : List RecordId :=
  targets.usages.filterMap fun usage => m.get? usage.id

/-- A fragment of a set of targets is that of a use of `@defer` among them. -/
theorem exists_of_mem_fragmentsIn {targets : TargetSet} (h : fragment ∈ fragmentsIn m targets) :
    ∃ u, .deferred u ∈ targets.targets ∧ m.get? u.id = some fragment := by
  obtain ⟨u, hu, hget⟩ := List.mem_filterMap.1 h
  obtain ⟨t, ht, husage⟩ := List.mem_filterMap.1 hu
  cases t with
  | initial => exact absurd husage (by simp [Target.usage?])
  | deferred v =>
    cases husage
    exact ⟨u, ht, hget⟩

theorem mem_fragmentsIn {targets : TargetSet} {u : Nat} (hne : u ≠ 0) (hu : u ∈ targets.ids)
    (hget : m.get? u = some fragment) : fragment ∈ fragmentsIn m targets := by
  obtain ⟨t, ht, rfl⟩ := List.mem_map.1 hu
  cases t with
  | initial => exact absurd rfl hne
  | deferred v => exact List.mem_filterMap.2 ⟨v, List.mem_filterMap.2 ⟨_, ht, rfl⟩, hget⟩

/-- A new set of fields belongs to the fragments of its fields that stand directly in the initial result. -/
theorem Roots.fieldSet {group : FieldGroup} (h : p.Roots home reached m) {targets parent : TargetSet}
    (hsub : group.reached ⊆ reached) (hparent : ¬ p.IsFieldSet home → parent = .initial) (hne : targets ≠ parent)
    (hinitial : .initial ∈ group.reached → (∀ t ∈ group.reached, t ≠ .initial → 0 ∈ t.ancestors) → targets = .initial)
    (hdirect : ∀ u, .deferred u ∈ group.reached → u.ancestors = [0] → (∀ t ∈ group.reached, t.id ≠ 0) →
      u.id ∈ targets.ids) (hg : Grows p.records.size p q) (hl : q.Linked) {set : RecordId}
    (hset : ∀ fragment ∈ fragmentsIn m targets, q.BelongsTo set fragment) : q.Roots set group.reached m := by
  have hnot : .initial ∉ group.reached := by
    intro hmem
    refine hne ((hinitial hmem fun t ht htne => ?_).trans (hparent (h.initial (hsub hmem))).symm)
    cases t with
    | initial => exact absurd rfl htne
    | deferred u => exact (h.usages u (hsub ht)).2.1
  refine ⟨h.zero, fun hmem => absurd hmem hnot, fun u hu => ?_⟩
  obtain ⟨hid, hzero, fragment, hget, hfragment, -, hafter⟩ := h.usages u (hsub hu)
  refine ⟨hid, hzero, fragment, hget, hg.isFragment hfragment, fun heq => .inl (hset fragment ?_),
    fun heq => (hafter heq).grows hg hl hfragment.lt_size⟩
  refine mem_fragmentsIn hid (hdirect u hu heq fun t ht => ?_) hget
  cases t with
  | initial => exact absurd ht hnot
  | deferred v => exact (h.usages v (hsub ht)).1

end Publisher

end GraphQL
