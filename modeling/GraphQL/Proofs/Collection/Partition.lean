import GraphQL.Proofs.Collection.Traversal
import Mathlib.Data.List.Nodup
import Mathlib.Data.List.Perm.Basic

/-!
# The partition of a selection

Masking sorts the keys that were met into the set around the fields and new sets (`CollectedFields.Partitions`): each key
into one, by those of its targets that have none of its others around them.  This needs that targets are known by their ids,
and that what stands around a target also has around it what stands around that (`Lineage`), which holds of all targets that
one collector hands out.
-/

namespace GraphQL

/-! ### Targets and those around them -/

/-- Uses of `@defer` have numbers of their own below `next`, and each stands in the initial result or in a use before it. -/
structure Lineage (next : Nat) (usages : List DeferUsage) : Prop where
  positive : 0 < next
  bounded : ∀ u ∈ usages, 0 < u.id ∧ u.id < next
  unique : ∀ u ∈ usages, ∀ v ∈ usages, u.id = v.id → u = v
  around : ∀ u ∈ usages, ∃ t, Reaches [.initial] usages t ∧ t.id < u.id ∧ u.ancestors = t.id :: t.ancestors

namespace Lineage

variable {next : Nat} {usages : List DeferUsage} {t u : Target}

theorem start : Lineage 1 [] :=
  ⟨Nat.one_pos, fun _ h => absurd h List.not_mem_nil, fun _ h => absurd h List.not_mem_nil,
    fun _ h => absurd h List.not_mem_nil⟩

theorem mono (h : Lineage next usages) {next' : Nat} (hle : next ≤ next') : Lineage next' usages :=
  ⟨Nat.lt_of_lt_of_le h.positive hle, fun u hu => ⟨(h.bounded u hu).1, Nat.lt_of_lt_of_le (h.bounded u hu).2 hle⟩, h.unique,
    h.around⟩

theorem id_lt (h : Lineage next usages) (ht : Reaches [.initial] usages t) : t.id < next := by
  rcases ht with ht | ⟨u, hu, rfl⟩
  · rw [List.mem_singleton.1 ht]
    exact h.positive
  · exact (h.bounded u hu).2

/-- Targets are known by their ids. -/
theorem eq_of_id (h : Lineage next usages) (ht : Reaches [.initial] usages t) (hu : Reaches [.initial] usages u)
    (hid : t.id = u.id) : t = u := by
  rcases ht with ht | ⟨v, hv, rfl⟩ <;> rcases hu with hu | ⟨w, hw, rfl⟩
  · rw [List.mem_singleton.1 ht, List.mem_singleton.1 hu]
  · rw [List.mem_singleton.1 ht] at hid
    exact absurd hid (Nat.ne_of_lt (h.bounded w hw).1)
  · rw [List.mem_singleton.1 hu] at hid
    exact absurd hid.symm (Nat.ne_of_lt (h.bounded v hv).1)
  · exact congrArg Target.deferred (h.unique v hv w hw hid)

/-- A target has only earlier ones around it, and with one of them all that are around that. -/
theorem ancestors (h : Lineage next usages) (ht : Reaches [.initial] usages t) :
    (∀ a ∈ t.ancestors, a < t.id) ∧
      ∀ u, Reaches [.initial] usages u → u.id ∈ t.ancestors → u.ancestors ⊆ t.ancestors := by
  -- by induction on the id
  have hall : ∀ (n : Nat) (t : Target), t.id < n → Reaches [.initial] usages t →
      (∀ a ∈ t.ancestors, a < t.id) ∧
        ∀ u, Reaches [.initial] usages u → u.id ∈ t.ancestors → u.ancestors ⊆ t.ancestors := by
    intro n
    induction n with
    | zero => exact fun t hlt => absurd hlt (Nat.not_lt_zero _)
    | succ n ih =>
      intro t hlt ht
      rcases ht with ht | ⟨v, hv, rfl⟩
      · rw [List.mem_singleton.1 ht]
        exact ⟨fun a ha => absurd ha List.not_mem_nil, fun u _ hu => absurd hu List.not_mem_nil⟩
      · obtain ⟨s, hs, hsv, hancestors⟩ := h.around v hv
        have hlt : v.id < n + 1 := hlt
        obtain ⟨hbelow, hclosed⟩ := ih s (by omega) hs
        show (∀ a ∈ v.ancestors, a < v.id) ∧ ∀ u : Target, _ → u.id ∈ v.ancestors → u.ancestors ⊆ v.ancestors
        rw [hancestors]
        refine ⟨fun a ha => ?_, fun u hu hmem => ?_⟩
        · rcases List.mem_cons.1 ha with rfl | ha
          · exact hsv
          · have := hbelow a ha
            omega
        · rcases List.mem_cons.1 hmem with hid | hmem
          · rw [h.eq_of_id hu hs hid]
            exact List.subset_cons_self _ _
          · exact List.Subset.trans (hclosed u hu hmem) (List.subset_cons_self _ _)
  exact hall (t.id + 1) t (Nat.lt_succ_self _) ht

/-- One more use of `@defer`. -/
theorem concat (h : Lineage next usages) {u : DeferUsage} (hid : u.id = next) (ht : Reaches [.initial] usages t)
    (haround : u.ancestors = t.id :: t.ancestors) : Lineage (next + 1) (usages ++ [u]) where
  positive := Nat.succ_pos _
  bounded v hv := by
    rcases List.mem_append.1 hv with hv | hv
    · exact ⟨(h.bounded v hv).1, Nat.lt_succ_of_lt (h.bounded v hv).2⟩
    · rw [List.mem_singleton.1 hv, hid]
      exact ⟨h.positive, Nat.lt_succ_self _⟩
  unique v hv w hw heq := by
    rcases List.mem_append.1 hv with hv | hv <;> rcases List.mem_append.1 hw with hw | hw
    · exact h.unique v hv w hw heq
    · rw [List.mem_singleton.1 hw, hid] at heq
      exact absurd heq (Nat.ne_of_lt (h.bounded v hv).2)
    · rw [List.mem_singleton.1 hv, hid] at heq
      exact absurd heq.symm (Nat.ne_of_lt (h.bounded w hw).2)
    · rw [List.mem_singleton.1 hv, List.mem_singleton.1 hw]
  around v hv := by
    rcases List.mem_append.1 hv with hv | hv
    · obtain ⟨s, hs, hlt, hancestors⟩ := h.around v hv
      exact ⟨s, hs.mono (List.prefix_append _ _), hlt, hancestors⟩
    · rw [List.mem_singleton.1 hv]
      exact ⟨t, ht.mono (List.prefix_append _ _), hid ▸ h.id_lt ht, haround⟩

end Lineage

namespace CollectionContext

/-- What a walk meets stands in targets that are known, or in uses of `@defer` that it numbers. -/
theorem Meets.lineage {c : CollectionContext} {objectType : String} {work : List (Target × Selection)}
    {visited visited' : List String} {next : Nat} {met : List Occurrence} {usages : List DeferUsage}
    (h : c.Meets objectType work visited next met usages visited') {issued : List DeferUsage}
    (hissued : Lineage next issued) (hwork : ∀ x ∈ work, Reaches [.initial] issued x.1) :
    Lineage (next + usages.length) (issued ++ usages) ∧ ∀ o ∈ met, Reaches [.initial] (issued ++ usages) o.target := by
  induction h generalizing issued with
  | nil =>
    rw [List.append_nil]
    exact ⟨hissued, fun o ho => absurd ho List.not_mem_nil⟩
  | field _ _ ih =>
    obtain ⟨htarget, hrest⟩ := List.forall_mem_cons.1 hwork
    obtain ⟨hlineage, hmet⟩ := ih hissued hrest
    exact ⟨hlineage, List.forall_mem_cons.2 ⟨htarget.mono (List.prefix_append _ _), hmet⟩⟩
  | pass _ _ _ ih => exact ih hissued (List.forall_mem_cons.1 hwork).2
  | plain _ _ _ _ ihbelow ih =>
    obtain ⟨htarget, hrest⟩ := List.forall_mem_cons.1 hwork
    obtain ⟨hlineage₁, hmet₁⟩ := ihbelow hissued fun x hx => by
      obtain ⟨s, -, rfl⟩ := List.mem_map.1 hx
      exact htarget
    obtain ⟨hlineage₂, hmet₂⟩ := ih hlineage₁ fun x hx => (hrest x hx).mono (List.prefix_append _ _)
    rw [List.length_append, ← Nat.add_assoc, ← List.append_assoc]
    refine ⟨hlineage₂, fun o ho => ?_⟩
    rcases List.mem_append.1 ho with ho | ho
    · exact (hmet₁ o ho).mono (List.prefix_append _ _)
    · exact hmet₂ o ho
  | @deferred target _ _ _ _ usage _ _ _ usages₁ _ _ usages₂ _ _ hid haround _ _ ihbelow ih =>
    obtain ⟨htarget, hrest⟩ := List.forall_mem_cons.1 hwork
    have hown : Reaches [.initial] (issued ++ [usage]) (.deferred usage) :=
      .inr ⟨usage, List.mem_append_right _ (List.mem_singleton_self _), rfl⟩
    obtain ⟨hlineage₁, hmet₁⟩ := ihbelow (hissued.concat hid htarget haround) fun x hx => by
      obtain ⟨s, -, rfl⟩ := List.mem_map.1 hx
      exact hown
    obtain ⟨hlineage₂, hmet₂⟩ := ih hlineage₁ fun x hx =>
      ((hrest x hx).mono (List.prefix_append _ _)).mono (List.prefix_append _ _)
    have hall : issued ++ (usage :: usages₁ ++ usages₂) = issued ++ [usage] ++ usages₁ ++ usages₂ := by simp
    have hlength : (usage :: usages₁ ++ usages₂).length = 1 + usages₁.length + usages₂.length := by
      simp only [List.length_append, List.length_cons]
      omega
    rw [hall, hlength, ← Nat.add_assoc, ← Nat.add_assoc]
    refine ⟨hlineage₂, fun o ho => ?_⟩
    rcases List.mem_append.1 ho with ho | ho
    · exact (hmet₁ o ho).mono (List.prefix_append _ _)
    · exact hmet₂ o ho

end CollectionContext

/-- What was met is sorted into the set around the fields, which has the targets `parent`, and into new sets. -/
structure CollectedFields.Partitions (collected : CollectedFields) (parent : TargetSet) (met : List Occurrence) : Prop where
  /-- Each key is in one of the sets, and there once. -/
  nodup : (collected.allFields.map Prod.fst).Nodup
  mem_keys : ∀ key, key ∈ collected.allFields.map Prod.fst ↔ ∃ o ∈ met, o.key = key
  /-- Its group has the fields that were met under the key, each as often as it was met, and first the first. -/
  occurrences : ∀ field ∈ collected.allFields, (field.2.fields.map fun d => (d.target, d.node)).Perm
    ((Occurrence.ofKey met field.1).map fun o => (o.target, o.node))
  first : ∀ field ∈ collected.allFields, ∃ o, met.find? (·.key = field.1) = some o ∧ field.2.first = ⟨o.node, o.target⟩
  /-- The keys of a set stand in the order in which they were first met, in whatever target that was. -/
  ordered : ∀ fields, (fields = collected.fields ∨ ∃ set ∈ collected.newSets, fields = set.fields) →
    (fields.map Prod.fst).Sublist (Occurrence.keys met)
  /-- A group is delivered in targets in which its key was met, none of them in another, and each target in which the key was
  met is one of them or stands in one of them. -/
  contributing : ∀ field ∈ collected.allFields, ∀ t ∈ field.2.targets.targets, ∃ o ∈ met, o.key = field.1 ∧ o.target = t
  antichain : ∀ field ∈ collected.allFields, ∀ t ∈ field.2.targets.targets, ∀ u ∈ field.2.targets.targets,
    u.id ∉ t.ancestors
  covers : ∀ field ∈ collected.allFields, ∀ o ∈ met, o.key = field.1 →
    o.target ∈ field.2.targets.targets ∨ ∃ t ∈ field.2.targets.targets, t.id ∈ o.target.ancestors
  /-- It is in the set around the fields exactly if its targets are those of this set. -/
  own : ∀ field ∈ collected.allFields,
    field ∈ collected.fields ↔ ∀ t, t ∈ field.2.targets.targets ↔ t ∈ parent.targets
  others : ∀ set ∈ collected.newSets, ∀ field ∈ set.fields, field.2.targets = set.targets
  /-- A new set initiates a defer exactly if it has a target that the set around the fields lacks. -/
  initiates : ∀ set ∈ collected.newSets, set.initiatesDefer = true ↔ ∃ t ∈ set.targets.targets, t ∉ parent.targets

/-- Elements with their parts under each of some labels that differ, together. -/
theorem List.flatMap_filter_perm {α β : Type} [DecidableEq β] (f : α → β) {labels : List β} (hnodup : labels.Nodup)
    {xs : List α} (hlabels : ∀ x ∈ xs, f x ∈ labels) : (labels.flatMap fun b => xs.filter (f · = b)).Perm xs := by
  induction labels generalizing xs with
  | nil =>
    cases xs with
    | nil => exact .refl _
    | cons x rest => exact absurd (hlabels x List.mem_cons_self) List.not_mem_nil
  | cons b labels ih =>
    obtain ⟨hb, hrest⟩ := List.nodup_cons.1 hnodup
    have hother : ∀ b' ∈ labels, xs.filter (f · = b') = (xs.filter (¬ f · = b)).filter (f · = b') := by
      intro b' hb'
      rw [List.filter_filter]
      refine List.filter_congr fun x _ => ?_
      by_cases heq : f x = b'
      · have hne : f x ≠ b := fun h => hb (h ▸ heq ▸ hb')
        simp [heq, heq ▸ hne]
      · simp [heq]
    rw [List.flatMap_cons, List.flatMap_congr hother]
    have hlabels' : ∀ x ∈ xs.filter (¬ f · = b), f x ∈ labels := by
      intro x hx
      obtain ⟨hx, hne⟩ := List.mem_filter.1 hx
      exact (List.mem_cons.1 (hlabels x hx)).resolve_left (by simpa using hne)
    refine ((ih hrest hlabels').append_left _).trans ?_
    simpa using List.filter_append_perm (f · = b) xs

namespace Occurrence

variable {met : List Occurrence} {key : String}

/-! ### Keys and their groups -/

theorem mem_keys : key ∈ keys met ↔ ∃ o ∈ met, o.key = key := by
  rw [keys, List.mem_eraseDups, List.mem_map]

theorem details_ne_nil (h : key ∈ keys met) : details met key ≠ [] := by
  obtain ⟨o, ho, hkey⟩ := mem_keys.1 h
  have hmem := mem_map_details.2 (mem_targetsOf.2 ⟨o, ho, hkey, rfl⟩)
  intro hnil
  rw [hnil] at hmem
  exact absurd hmem List.not_mem_nil

/-- The fields of a key, by target, are those that were met under it. -/
theorem details_perm (key : String) : ((details met key).map fun d => (d.target, d.node)).Perm
    ((ofKey met key).map fun o => (o.target, o.node)) := by
  have hmap : (details met key).map (fun d => (d.target, d.node)) =
      ((targetsOf met key).flatMap fun t => (ofKey met key).filter (·.target = t)).map fun o => (o.target, o.node) := by
    unfold details
    rw [List.map_flatMap, List.map_flatMap]
    refine List.flatMap_congr fun t _ => ?_
    rw [List.map_map]
    refine List.map_congr_left fun o ho => ?_
    have htarget : o.target = t := by simpa using (List.mem_filter.1 ho).2
    simp [htarget]
  rw [hmap]
  refine (List.flatMap_filter_perm Occurrence.target (List.nodup_eraseDups _) fun o ho => ?_).map _
  exact List.mem_eraseDups.2 (List.mem_map_of_mem ho)

/-- The first field of a key is the one that was met first. -/
theorem head?_details (key : String) :
    (details met key).head? = (met.find? (·.key = key)).map fun o => ⟨o.node, o.target⟩ := by
  have hfind : met.find? (·.key = key) = (ofKey met key).head? := (List.head?_filter ..).symm
  rw [hfind, details, targetsOf]
  cases ofKey met key with
  | nil => rfl
  | cons o rest =>
    rw [List.map_cons, List.eraseDups_cons, List.flatMap_cons, List.filter_cons_of_pos (by simp)]
    rfl

theorem keys_groups (targets : TargetSet) (next : Nat) {ks : List String} (h : ks ⊆ keys met) :
    (groups met targets next ks).map Prod.fst = ks := by
  induction ks generalizing next with
  | nil => rfl
  | cons key rest ih =>
    unfold groups
    split
    · rename_i hnil
      exact absurd hnil (details_ne_nil (h List.mem_cons_self))
    · exact congrArg (key :: ·) (ih _ fun k hk => h (List.mem_cons_of_mem _ hk))

theorem keysOf_subset (targets : TargetSet) : keysOf met targets ⊆ keys met :=
  List.filter_sublist.subset

theorem mem_keysOf {targets : TargetSet} : key ∈ keysOf met targets ↔ key ∈ keys met ∧ maskingSet met key = targets := by
  simp [keysOf]

theorem keys_newSets (parent : TargetSet) (next : Nat) (sets : List TargetSet) :
    ((newSets met parent next sets).flatMap NewFieldSet.fields).map Prod.fst = sets.flatMap (keysOf met) := by
  induction sets generalizing next with
  | nil => rfl
  | cons targets rest ih =>
    unfold newSets
    rw [List.flatMap_cons, List.map_append, ih, List.flatMap_cons]
    exact congrArg (· ++ _) (keys_groups targets next (keysOf_subset targets))

/-- The keys of all sets, set by set. -/
theorem keys_allFields (parent : TargetSet) (next : Nat) (usages : List DeferUsage) :
    (partition met parent next usages).1.allFields.map Prod.fst =
      keysOf met parent ++ (newTargetSets met parent).flatMap (keysOf met) := by
  unfold partition CollectedFields.allFields
  rw [List.map_append, keys_newSets]
  exact congrArg (· ++ _) (keys_groups parent next (keysOf_subset parent))

theorem mem_newTargetSets {parent targets : TargetSet} :
    targets ∈ newTargetSets met parent ↔ targets ≠ parent ∧ ∃ key ∈ keys met, maskingSet met key = targets := by
  simp only [newTargetSets, List.mem_eraseDups, List.mem_filter, List.mem_map, decide_eq_true_eq]
  exact and_comm

theorem nodup_keys_allFields (parent : TargetSet) (next : Nat) (usages : List DeferUsage) :
    ((partition met parent next usages).1.allFields.map Prod.fst).Nodup := by
  have hkeysOf : ∀ targets, (keysOf met targets).Nodup := fun targets => nodup_keys.sublist List.filter_sublist
  rw [keys_allFields, List.nodup_append, List.nodup_flatMap]
  refine ⟨hkeysOf parent, ⟨fun targets _ => hkeysOf targets, ?_⟩, fun key hkey key' hkey' heq => ?_⟩
  · refine (List.nodup_eraseDups _).imp fun {s s'} hne => ?_
    exact fun key hkey hkey' => hne ((mem_keysOf.1 hkey).2.symm.trans (mem_keysOf.1 hkey').2)
  · obtain ⟨targets, htargets, hkey'⟩ := List.mem_flatMap.1 hkey'
    exact (mem_newTargetSets.1 htargets).1 ((mem_keysOf.1 hkey').2.symm.trans (heq ▸ (mem_keysOf.1 hkey).2))

theorem mem_keys_allFields {parent : TargetSet} {next : Nat} {usages : List DeferUsage} :
    key ∈ (partition met parent next usages).1.allFields.map Prod.fst ↔ ∃ o ∈ met, o.key = key := by
  rw [keys_allFields, List.mem_append, List.mem_flatMap, ← mem_keys]
  constructor
  · rintro (hkey | ⟨targets, -, hkey⟩)
    · exact (mem_keysOf.1 hkey).1
    · exact (mem_keysOf.1 hkey).1
  · intro hkey
    by_cases hparent : maskingSet met key = parent
    · exact .inl (mem_keysOf.2 ⟨hkey, hparent⟩)
    · exact .inr ⟨_, mem_newTargetSets.2 ⟨hparent, key, hkey, rfl⟩, mem_keysOf.2 ⟨hkey, rfl⟩⟩

/-- A new set has the groups of its keys. -/
theorem mem_newSets_partition {parent : TargetSet} {next : Nat} {usages : List DeferUsage} {set : NewFieldSet}
    (h : set ∈ (partition met parent next usages).1.newSets) : set.targets ≠ parent ∧
      (set.initiatesDefer = set.targets.targets.any fun t => !parent.contains t) ∧
      (∃ key ∈ keys met, maskingSet met key = set.targets) ∧
      ∃ next', set.fields = groups met set.targets next' (keysOf met set.targets) := by
  obtain ⟨htargets, hfields⟩ := mem_newSets h
  obtain ⟨hne, hkey⟩ := mem_newTargetSets.1 htargets
  refine ⟨hne, ?_, hkey, hfields⟩
  have hall : ∀ (next : Nat) (sets : List TargetSet), ∀ set ∈ newSets met parent next sets,
      set.initiatesDefer = set.targets.targets.any fun t => !parent.contains t := by
    intro next sets
    induction sets generalizing next with
    | nil => exact fun set hset => absurd hset List.not_mem_nil
    | cons targets rest ih => exact List.forall_mem_cons.2 ⟨rfl, ih _⟩
  exact hall _ _ set h

/-- A group has the fields of its key and the set that masks its targets, and is in the set around the fields if this is
it. -/
theorem mem_allFields {parent : TargetSet} {next : Nat} {usages : List DeferUsage} {field : String × FieldGroup}
    (h : field ∈ (partition met parent next usages).1.allFields) :
    field.2.fields = details met field.1 ∧ field.2.targets = maskingSet met field.1 ∧
      (field ∈ (partition met parent next usages).1.fields ↔ maskingSet met field.1 = parent) := by
  have hown : field ∈ (partition met parent next usages).1.fields →
      field.2.fields = details met field.1 ∧ field.2.targets = parent ∧ maskingSet met field.1 = parent := by
    intro hfield
    obtain ⟨hkey, htargets, hfields⟩ := mem_groups hfield
    exact ⟨hfields, htargets, (mem_keysOf.1 hkey).2⟩
  rcases List.mem_append.1 h with hfield | hfield
  · obtain ⟨hfields, htargets, hmask⟩ := hown hfield
    exact ⟨hfields, htargets.trans hmask.symm, fun _ => hmask, fun _ => hfield⟩
  · obtain ⟨set, hset, hfield⟩ := List.mem_flatMap.1 hfield
    obtain ⟨hne, -, -, next', heq⟩ := mem_newSets_partition hset
    rw [heq] at hfield
    obtain ⟨hkey, htargets, hfields⟩ := mem_groups hfield
    have hmask := (mem_keysOf.1 hkey).2
    exact ⟨hfields, htargets.trans hmask.symm, fun hfield => (hown hfield).2.2, fun heq => absurd (hmask.symm.trans heq) hne⟩

/-! ### Masking -/

theorem mem_maskingTargets {t : Target} : t ∈ maskingTargets met key ↔
    t ∈ targetsOf met key ∧ ∀ u ∈ targetsOf met key, u.id ∉ t.ancestors := by
  unfold maskingTargets
  simp only [List.mem_filter, List.all_eq_true, Bool.not_eq_true', List.contains_eq_mem, decide_eq_false_iff_not,
    List.mem_map, not_exists, not_and]
  exact and_congr_right fun _ => ⟨fun h u hu hmem => h _ hmem u hu rfl, fun h a ha u hu heq => h u hu (heq ▸ ha)⟩

section Lineage

variable {next : Nat} {usages : List DeferUsage} (hmet : ∀ o ∈ met, Reaches [.initial] usages o.target)
include hmet

theorem reaches_targetsOf {t : Target} (ht : t ∈ targetsOf met key) : Reaches [.initial] usages t := by
  obtain ⟨o, ho, -, rfl⟩ := mem_targetsOf.1 ht
  exact hmet o ho

variable (h : Lineage next usages)
include h

/-- Targets that mask are found, where targets are known by their ids. -/
theorem mem_maskingSet_iff {t : Target} : t ∈ (maskingSet met key).targets ↔ t ∈ maskingTargets met key := by
  refine ⟨TargetSet.mem_ofList, fun ht => ?_⟩
  obtain ⟨u, hu, hid⟩ := List.mem_map.1 (TargetSet.id_mem_ofList ht)
  have hreached := reaches_targetsOf hmet (mem_maskingTargets.1 ht).1
  have hreached' := reaches_targetsOf hmet (mem_maskingTargets.1 (TargetSet.mem_ofList hu)).1
  obtain rfl := h.eq_of_id hreached' hreached hid
  exact hu

/-- A target that does not mask stands in one that does. -/
theorem exists_masking {t : Target} (ht : t ∈ targetsOf met key) :
    t ∈ maskingTargets met key ∨ ∃ u ∈ maskingTargets met key, u.id ∈ t.ancestors := by
  -- by induction on the id, since the targets around a target have smaller ones
  have hall : ∀ (n : Nat) (t : Target), t.id < n → t ∈ targetsOf met key →
      t ∈ maskingTargets met key ∨ ∃ u ∈ maskingTargets met key, u.id ∈ t.ancestors := by
    intro n
    induction n with
    | zero => exact fun t hlt => absurd hlt (Nat.not_lt_zero _)
    | succ n ih =>
      intro t hlt ht
      by_cases hmask : t ∈ maskingTargets met key
      · exact .inl hmask
      · obtain ⟨u, hu, hmem⟩ : ∃ u ∈ targetsOf met key, u.id ∈ t.ancestors := by
          by_contra hnone
          exact hmask (mem_maskingTargets.2 ⟨ht, fun u hu hmem => hnone ⟨u, hu, hmem⟩⟩)
        obtain ⟨hearlier, hclosed⟩ := h.ancestors (reaches_targetsOf hmet ht)
        have hsmaller := hearlier _ hmem
        rcases ih u (by omega) hu with hmask | ⟨v, hv, hmem'⟩
        · exact .inr ⟨u, hmask, hmem⟩
        · exact .inr ⟨v, hv, hclosed u (reaches_targetsOf hmet hu) hmem hmem'⟩
  exact hall (t.id + 1) t (Nat.lt_succ_self _) ht

end Lineage

end Occurrence

/-- Sets in the order of their ids are the same if they have the same targets. -/
theorem TargetSet.eq_of_mem_iff {s s' : TargetSet} (hs : s.targets.Pairwise fun t u => t.id < u.id)
    (hs' : s'.targets.Pairwise fun t u => t.id < u.id) (h : ∀ t, t ∈ s.targets ↔ t ∈ s'.targets) : s = s' := by
  have hnodup : ∀ {s : TargetSet}, (s.targets.Pairwise fun t u => t.id < u.id) → s.targets.Nodup := fun hs =>
    hs.imp fun {t u} hlt heq => absurd hlt (by rw [heq]; exact Nat.lt_irrefl _)
  have hperm : s.targets.Perm s'.targets := (List.perm_ext_iff_of_nodup (hnodup hs) (hnodup hs')).2 h
  have heq : s.targets = s'.targets :=
    hperm.eq_of_pairwise (fun t u _ _ hlt hgt => absurd hlt (Nat.lt_asymm hgt)) hs hs'
  exact congrArg TargetSet.mk heq

/-- **Masking.**  A collection is a partition of what was met, if targets are known by their ids and those of the set around
the fields stand in order. -/
theorem Occurrence.partitions {met : List Occurrence} {parent : TargetSet} {next : Nat} {issued usages : List DeferUsage}
    (h : Lineage next issued) (hmet : ∀ o ∈ met, Reaches [.initial] issued o.target)
    (hparent : ∀ t ∈ parent.targets, Reaches [.initial] issued t)
    (hordered : parent.targets.Pairwise fun t u => t.id < u.id) (nextGroup : Nat) :
    (Occurrence.partition met parent nextGroup usages).1.Partitions parent met where
  nodup := nodup_keys_allFields parent nextGroup usages
  mem_keys _ := mem_keys_allFields
  occurrences field hfield := by
    rw [(mem_allFields hfield).1]
    exact details_perm field.1
  first field hfield := by
    have hhead := @head?_details met field.1
    rw [← (mem_allFields hfield).1, FieldGroup.fields, List.head?_cons] at hhead
    obtain ⟨o, ho, heq⟩ := Option.map_eq_some_iff.1 hhead.symm
    exact ⟨o, ho, heq.symm⟩
  ordered fields hfields := by
    have hgroups : ∀ targets next', ((groups met targets next' (keysOf met targets)).map Prod.fst).Sublist (keys met) :=
      fun targets next' => (keys_groups_sublist targets next' _).trans List.filter_sublist
    rcases hfields with rfl | ⟨set, hset, rfl⟩
    · exact hgroups parent nextGroup
    · obtain ⟨-, -, -, next', heq⟩ := mem_newSets_partition hset
      rw [heq]
      exact hgroups _ next'
  contributing field hfield t ht := by
    rw [(mem_allFields hfield).2.1] at ht
    exact mem_targetsOf.1 (mem_maskingSet ht)
  antichain field hfield t ht u hu := by
    rw [(mem_allFields hfield).2.1] at ht hu
    exact (mem_maskingTargets.1 (TargetSet.mem_ofList ht)).2 u (mem_maskingSet hu)
  covers field hfield o ho hkey := by
    rw [(mem_allFields hfield).2.1]
    rcases exists_masking hmet h (mem_targetsOf.2 ⟨o, ho, hkey, rfl⟩) with hmask | ⟨u, hu, hmem⟩
    · exact .inl ((mem_maskingSet_iff hmet h).2 hmask)
    · exact .inr ⟨u, (mem_maskingSet_iff hmet h).2 hu, hmem⟩
  own field hfield := by
    obtain ⟨-, htargets, hown⟩ := mem_allFields hfield
    rw [hown, htargets]
    refine ⟨fun heq t => by rw [heq], fun hiff => ?_⟩
    exact TargetSet.eq_of_mem_iff (TargetSet.pairwise_ofList _) hordered hiff
  others set hset field hfield := by
    obtain ⟨-, -, -, next', heq⟩ := mem_newSets_partition hset
    rw [heq] at hfield
    exact (mem_groups hfield).2.1
  initiates set hset := by
    obtain ⟨-, hinitiates, ⟨key, -, hmask⟩, -⟩ := mem_newSets_partition hset
    have hcontains : ∀ t ∈ set.targets.targets, parent.contains t = false ↔ t ∉ parent.targets := by
      intro t ht
      rw [← hmask] at ht
      rw [TargetSet.contains, TargetSet.ids, List.contains_eq_mem, decide_eq_false_iff_not, not_iff_not]
      refine ⟨fun hid => ?_, fun hmem => List.mem_map_of_mem hmem⟩
      obtain ⟨u, hu, hid⟩ := List.mem_map.1 hid
      rwa [← h.eq_of_id (hparent u hu) (reaches_targetsOf hmet (mem_maskingSet ht)) hid]
    rw [hinitiates, List.any_eq_true]
    simp only [Bool.not_eq_true']
    exact exists_congr fun t => and_congr_right (hcontains t)

end GraphQL
