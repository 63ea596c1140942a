import GraphQL.Proofs.Collection.Targets

/-!
# Collected sets of fields

What a collection sorts its fields into (`CollectedFields.Fits`): the groups of all sets are numbered one after the
other, every field of a group was met in a target that the walk reached, and each new set has the targets that mask
those of its keys (`Collector.finish_ok`).
-/

namespace GraphQL

/-- The fields of all sets that are collected together. -/
def CollectedFields.allFields (collected : CollectedFields) : GroupedFieldSet :=
  collected.fields ++ collected.newSets.flatMap NewFieldSet.fields

/-- What is collected by a walk from some targets, below fields that are delivered in a set of targets. -/
structure CollectedFields.Fits (first : Nat) (reached : List Target) (parent : TargetSet)
    (collected : CollectedFields) : Prop where
  usages : UsagesFrom first reached collected.newUsages
  reaches : ∀ field ∈ collected.allFields, ∀ t ∈ field.2.reached, Reaches reached collected.newUsages t
  own : ∀ field ∈ collected.fields, field.2.targets = parent
  others : ∀ set ∈ collected.newSets, set.targets ≠ parent ∧
    (∀ t ∈ set.targets.targets, Reaches reached collected.newUsages t) ∧
    ∀ field ∈ set.fields, field.2.targets = set.targets ∧
      (.initial ∈ field.2.reached → (∀ t ∈ field.2.reached, t ≠ .initial → 0 ∈ t.ancestors) →
        set.targets = .initial) ∧
      ∀ u, .deferred u ∈ field.2.reached → u.ancestors = [0] → (∀ t ∈ field.2.reached, t.id ≠ 0) →
        u.id ∈ set.targets.ids

/-- What is left when repetitions are dropped differs. -/
theorem List.nodup_eraseDups {α : Type} [BEq α] [LawfulBEq α] (xs : List α) : xs.eraseDups.Nodup := by
  -- by induction on the length, as elements are dropped before the rest is looked at
  have herase : ∀ (n : Nat) (xs : List α), xs.length = n → xs.eraseDups.Nodup := by
    intro n
    induction n using Nat.strongRecOn with
    | ind n ih =>
      rintro (_ | ⟨x, xs⟩) rfl
      · exact List.nodup_nil
      · rw [List.eraseDups_cons]
        refine List.nodup_cons.2 ⟨fun hmem => ?_, ih _ (Nat.lt_succ_of_le (List.length_filter_le _ xs)) _ rfl⟩
        rw [List.mem_eraseDups, List.mem_filter] at hmem
        simp at hmem
  exact herase _ _ rfl

namespace TargetSet

private theorem mem_insertSorted {t u : Target} {ts : List Target} (h : u ∈ insertSorted t ts) : u = t ∨ u ∈ ts := by
  induction ts with
  | nil => exact Or.inl (List.mem_singleton.1 h)
  | cons v rest ih =>
    unfold insertSorted at h
    split at h
    · exact List.mem_cons.1 h
    · split at h
      · exact Or.inr h
      · rcases List.mem_cons.1 h with rfl | h
        · exact Or.inr List.mem_cons_self
        · exact (ih h).imp_right (List.mem_cons_of_mem v)

private theorem id_mem_insertSorted (t : Target) (ts : List Target) :
    t.id ∈ (insertSorted t ts).map Target.id ∧ ts.map Target.id ⊆ (insertSorted t ts).map Target.id := by
  induction ts with
  | nil => simp [insertSorted]
  | cons v rest ih =>
    unfold insertSorted
    split
    · exact ⟨by simp, fun i hi => List.mem_cons_of_mem _ hi⟩
    · split
      · rename_i heq
        exact ⟨by simp [heq], List.Subset.refl _⟩
      · refine ⟨List.mem_cons_of_mem _ ih.1, fun i hi => ?_⟩
        rcases List.mem_cons.1 hi with rfl | hi
        · exact List.mem_cons_self
        · exact List.mem_cons_of_mem _ (ih.2 hi)

private theorem foldl_insertSorted (ts sorted : List Target) :
    (∀ t ∈ ts.foldl (fun sorted t => insertSorted t sorted) sorted, t ∈ ts ∨ t ∈ sorted) ∧
      ∀ i ∈ (ts ++ sorted).map Target.id,
        i ∈ (ts.foldl (fun sorted t => insertSorted t sorted) sorted).map Target.id := by
  induction ts generalizing sorted with
  | nil => exact ⟨fun t ht => Or.inr ht, fun i hi => hi⟩
  | cons u rest ih =>
    obtain ⟨hmem, hids⟩ := ih (insertSorted u sorted)
    obtain ⟨hown, hold⟩ := id_mem_insertSorted u sorted
    refine ⟨fun t ht => ?_, fun i hi => hids i ?_⟩
    · rcases hmem t ht with ht | ht
      · exact Or.inl (List.mem_cons_of_mem u ht)
      · rcases mem_insertSorted ht with rfl | ht
        · exact Or.inl List.mem_cons_self
        · exact Or.inr ht
    · rw [List.map_append, List.mem_append]
      simp only [List.cons_append, List.map_cons, List.map_append, List.mem_cons, List.mem_append] at hi
      rcases hi with rfl | hi | hi
      · exact Or.inr hown
      · exact Or.inl hi
      · exact Or.inr (hold hi)

/-- Targets are put into the order of their ids. -/
private theorem pairwise_insertSorted {t : Target} {ts : List Target} (h : ts.Pairwise fun u v => u.id < v.id) :
    (insertSorted t ts).Pairwise fun u v => u.id < v.id := by
  induction ts with
  | nil => exact List.pairwise_singleton _ _
  | cons v rest ih =>
    obtain ⟨hv, hrest⟩ := List.pairwise_cons.1 h
    unfold insertSorted
    split
    · rename_i hlt
      refine List.pairwise_cons.2 ⟨fun u hu => ?_, h⟩
      rcases List.mem_cons.1 hu with rfl | hu
      · exact hlt
      · exact Nat.lt_trans hlt (hv u hu)
    · split
      · exact h
      · rename_i hge hne
        refine List.pairwise_cons.2 ⟨fun u hu => ?_, ih hrest⟩
        rcases mem_insertSorted hu with rfl | hu
        · omega
        · exact hv u hu

/-- A set has its targets in the order of their ids, and none of them twice. -/
theorem pairwise_ofList (ts : List Target) : (ofList ts).targets.Pairwise fun u v => u.id < v.id := by
  have hfold : ∀ (ts sorted : List Target), (sorted.Pairwise fun u v => u.id < v.id) →
      (ts.foldl (fun sorted t => insertSorted t sorted) sorted).Pairwise fun u v => u.id < v.id := by
    intro ts
    induction ts with
    | nil => exact fun sorted h => h
    | cons t rest ih => exact fun sorted h => ih _ (pairwise_insertSorted h)
  exact hfold ts [] .nil

theorem mem_ofList {t : Target} {ts : List Target} (h : t ∈ (ofList ts).targets) : t ∈ ts :=
  ((foldl_insertSorted ts []).1 t h).resolve_right List.not_mem_nil

theorem id_mem_ofList {t : Target} {ts : List Target} (h : t ∈ ts) : t.id ∈ (ofList ts).ids :=
  (foldl_insertSorted ts []).2 t.id (List.mem_map_of_mem (List.mem_append_left _ h))

end TargetSet

namespace Occurrence

variable {met : List Occurrence} {key : String}

theorem mem_targetsOf {t : Target} : t ∈ targetsOf met key ↔ ∃ o ∈ met, o.key = key ∧ o.target = t := by
  simp only [targetsOf, ofKey, List.mem_eraseDups, List.mem_map, List.mem_filter, decide_eq_true_eq, and_assoc]

/-- The fields of a key stand in the targets of the key. -/
theorem mem_map_details {t : Target} : t ∈ (details met key).map FieldDetails.target ↔ t ∈ targetsOf met key := by
  constructor
  · intro h
    obtain ⟨d, hd, rfl⟩ := List.mem_map.1 h
    obtain ⟨u, hu, hd⟩ := List.mem_flatMap.1 hd
    obtain ⟨o, -, rfl⟩ := List.mem_map.1 hd
    exact hu
  · intro h
    obtain ⟨o, ho, hkey, htarget⟩ := mem_targetsOf.1 h
    refine List.mem_map.2 ⟨⟨o.node, t⟩, List.mem_flatMap.2 ⟨t, h, List.mem_map.2 ⟨o, ?_, rfl⟩⟩, rfl⟩
    simp [ofKey, ho, hkey, htarget]

theorem mem_groups {targets : TargetSet} {next : Nat} {keys : List String} {field : String × FieldGroup}
    (h : field ∈ groups met targets next keys) :
    field.1 ∈ keys ∧ field.2.targets = targets ∧ field.2.fields = details met field.1 := by
  induction keys generalizing next with
  | nil => exact absurd h List.not_mem_nil
  | cons key rest ih =>
    unfold groups at h
    split at h
    · obtain ⟨hkey, hrest⟩ := ih h
      exact ⟨List.mem_cons_of_mem key hkey, hrest⟩
    · rename_i first others hdetails
      rcases List.mem_cons.1 h with rfl | h
      · exact ⟨List.mem_cons_self, rfl, hdetails.symm⟩
      · obtain ⟨hkey, hrest⟩ := ih h
        exact ⟨List.mem_cons_of_mem key hkey, hrest⟩

/-- Groups are numbered one after the other. -/
theorem ids_groups (targets : TargetSet) (next : Nat) (keys : List String) :
    (groups met targets next keys).map (·.2.id) = List.range' next (groups met targets next keys).length := by
  induction keys generalizing next with
  | nil => rfl
  | cons key rest ih =>
    unfold groups
    split
    · exact ih next
    · rw [List.map_cons, ih (next + 1), List.length_cons, List.range'_succ]

theorem ids_newSets (parent : TargetSet) (next : Nat) (sets : List TargetSet) :
    ((newSets met parent next sets).flatMap NewFieldSet.fields).map (·.2.id) =
      List.range' next ((newSets met parent next sets).flatMap NewFieldSet.fields).length := by
  induction sets generalizing next with
  | nil => rfl
  | cons targets rest ih =>
    unfold newSets
    dsimp only
    rw [List.flatMap_cons, List.map_append, ih, ids_groups, List.length_append, ← List.range'_append_1]

/-- Each key is there once. -/
theorem nodup_keys : (keys met).Nodup := List.nodup_eraseDups _

theorem keys_groups_sublist (targets : TargetSet) (next : Nat) (keys : List String) :
    ((groups met targets next keys).map Prod.fst).Sublist keys := by
  induction keys generalizing next with
  | nil => exact List.Sublist.refl _
  | cons key rest ih =>
    unfold groups
    split
    · exact (ih next).cons key
    · exact (ih (next + 1)).cons_cons key

theorem mem_newSets {parent : TargetSet} {next : Nat} {sets : List TargetSet} {set : NewFieldSet}
    (h : set ∈ newSets met parent next sets) :
    set.targets ∈ sets ∧ ∃ next', set.fields = groups met set.targets next' (keysOf met set.targets) := by
  induction sets generalizing next with
  | nil => exact absurd h List.not_mem_nil
  | cons targets rest ih =>
    unfold newSets at h
    rcases List.mem_cons.1 h with rfl | h
    · exact ⟨List.mem_cons_self, next, rfl⟩
    · obtain ⟨htargets, hrest⟩ := ih h
      exact ⟨List.mem_cons_of_mem targets htargets, hrest⟩

theorem mem_maskingSet {t : Target} (h : t ∈ (maskingSet met key).targets) : t ∈ targetsOf met key :=
  (List.mem_filter.1 (TargetSet.mem_ofList h)).1

/-- Keys differ in each set into which what was met is sorted. -/
theorem nodup_partition {parent : TargetSet} {next : Nat} {usages : List DeferUsage} {fields : GroupedFieldSet}
    (h : fields = (partition met parent next usages).1.fields ∨
      ∃ set ∈ (partition met parent next usages).1.newSets, fields = set.fields) : (fields.map Prod.fst).Nodup := by
  have hgroups : ∀ targets next', ((groups met targets next' (keysOf met targets)).map Prod.fst).Nodup :=
    fun targets next' => ((nodup_keys : (keys met).Nodup).sublist List.filter_sublist).sublist
      (keys_groups_sublist targets next' _)
  rcases h with rfl | ⟨set, hset, rfl⟩
  · exact hgroups parent next
  · obtain ⟨-, next', hfields⟩ := mem_newSets hset
    rw [hfields]
    exact hgroups _ next'

/-- Nothing but the initial result is left of targets that all stand in it. -/
theorem maskingSet_initial (hinitial : .initial ∈ targetsOf met key)
    (h : ∀ t ∈ targetsOf met key, t ≠ .initial → 0 ∈ t.ancestors) : maskingSet met key = .initial := by
  have hfilter : maskingTargets met key = (targetsOf met key).filter (· == .initial) := by
    refine List.filter_congr fun t ht => ?_
    by_cases heq : t = .initial
    · subst heq
      rfl
    · have hzero : (0 : Nat) ∈ (targetsOf met key).map Target.id := List.mem_map.2 ⟨.initial, hinitial, rfl⟩
      have hleft : (t.ancestors.all fun a => !((targetsOf met key).map Target.id).contains a) = false := by
        rw [List.all_eq_false]
        exact ⟨0, h t ht heq, by simpa using hzero⟩
      rw [hleft]
      exact (beq_eq_false_iff_ne.2 heq).symm
  have hreplicate : ∀ n, (List.replicate n Target.initial).foldl (fun sorted t => TargetSet.insertSorted t sorted)
      [.initial] = [.initial] := by
    intro n
    induction n with
    | zero => rfl
    | succ n ih => exact ih
  unfold maskingSet
  rw [hfilter, List.filter_beq]
  cases hcount : (targetsOf met key).count .initial with
  | zero => exact absurd hinitial (List.count_eq_zero.1 hcount)
  | succ n => exact congrArg TargetSet.mk (hreplicate n)

/-- A target that stands directly in the initial result is not masked by others that do not. -/
theorem id_mem_maskingSet {u : DeferUsage} (hu : .deferred u ∈ targetsOf met key) (hancestors : u.ancestors = [0])
    (h : ∀ t ∈ targetsOf met key, t.id ≠ 0) : u.id ∈ (maskingSet met key).ids := by
  refine TargetSet.id_mem_ofList (t := .deferred u) (List.mem_filter.2 ⟨hu, ?_⟩)
  show u.ancestors.all _ = true
  rw [hancestors, List.all_cons, List.all_nil, Bool.and_true, Bool.not_eq_true', List.contains_eq_mem,
    decide_eq_false_iff_not]
  intro hmem
  obtain ⟨t, ht, hid⟩ := List.mem_map.1 hmem
  exact h t ht hid

/-- Groups are delivered in targets in which their fields were met. -/
theorem targets_subset_of_partition {parent : TargetSet} {next : Nat} {usages : List DeferUsage}
    {field : String × FieldGroup} (h : field ∈ (partition met parent next usages).1.allFields) :
    field.2.targets.targets ⊆ field.2.reached := by
  have hgroups : ∃ targets next', field ∈ groups met targets next' (keysOf met targets) := by
    rcases List.mem_append.1 h with hfield | hfield
    · exact ⟨parent, next, hfield⟩
    · obtain ⟨set, hset, hfield⟩ := List.mem_flatMap.1 hfield
      obtain ⟨-, next', hfields⟩ := mem_newSets hset
      exact ⟨set.targets, next', hfields ▸ hfield⟩
  obtain ⟨targets, next', hfield⟩ := hgroups
  obtain ⟨hkeys, htargets, hdetails⟩ := mem_groups hfield
  have hmask : maskingSet met field.1 = targets := by simpa using (List.mem_filter.1 hkeys).2
  intro t ht
  rw [htargets, ← hmask] at ht
  rw [FieldGroup.reached, hdetails]
  exact mem_map_details.2 (mem_maskingSet ht)

/-- The groups of all sets are numbered one after the other. -/
theorem ids_partition (parent : TargetSet) (next : Nat) (usages : List DeferUsage) :
    (partition met parent next usages).1.allFields.map (·.2.id) =
        List.range' next (partition met parent next usages).1.allFields.length ∧
      (partition met parent next usages).2 = next + (partition met parent next usages).1.allFields.length := by
  constructor
  · unfold partition
    dsimp only [CollectedFields.allFields]
    rw [List.map_append, ids_groups, ids_newSets, List.length_append, ← List.range'_append_1]
  · unfold partition
    dsimp only [CollectedFields.allFields]
    rw [List.length_append, Nat.add_assoc]

/-- What was met is sorted into sets. -/
theorem fits_partition {first : Nat} {reached : List Target} {parent : TargetSet} {usages : List DeferUsage}
    (husages : UsagesFrom first reached usages) (hmet : ∀ o ∈ met, Reaches reached usages o.target) (next : Nat) :
    (partition met parent next usages).1.Fits first reached parent := by
  have hreaches : ∀ {key t}, t ∈ targetsOf met key → Reaches reached usages t := by
    intro key t ht
    obtain ⟨o, ho, -, rfl⟩ := mem_targetsOf.1 ht
    exact hmet o ho
  have hgroups : ∀ {targets next keys} {field : String × FieldGroup}, field ∈ groups met targets next keys →
      ∀ t, t ∈ field.2.reached ↔ t ∈ targetsOf met field.1 := by
    intro targets next keys field hfield t
    rw [FieldGroup.reached, (mem_groups hfield).2.2]
    exact mem_map_details
  have hset : ∀ {set}, set ∈ (partition met parent next usages).1.newSets → set.targets ≠ parent ∧
      (∃ key, maskingSet met key = set.targets) ∧
      ∃ next', set.fields = groups met set.targets next' (keysOf met set.targets) := by
    intro set hmem
    obtain ⟨htargets, hfields⟩ := mem_newSets hmem
    rw [newTargetSets, List.mem_eraseDups, List.mem_filter] at htargets
    obtain ⟨key, -, hkey⟩ := List.mem_map.1 htargets.1
    exact ⟨by simpa using htargets.2, ⟨key, hkey⟩, hfields⟩
  refine ⟨husages, fun field hfield t ht => ?_, fun field hfield => (mem_groups hfield).2.1, fun set hmem => ?_⟩
  · rcases List.mem_append.1 hfield with hfield | hfield
    · exact hreaches ((hgroups hfield t).1 ht)
    · obtain ⟨set, hmem, hfield⟩ := List.mem_flatMap.1 hfield
      obtain ⟨-, -, next', hfields⟩ := hset hmem
      rw [hfields] at hfield
      exact hreaches ((hgroups hfield t).1 ht)
  · obtain ⟨hne, ⟨key, hkey⟩, next', hfields⟩ := hset hmem
    refine ⟨hne, fun t ht => ?_, fun field hfield => ?_⟩
    · rw [← hkey] at ht
      exact hreaches (mem_maskingSet ht)
    · rw [hfields] at hfield
      obtain ⟨hkeys, htargets, -⟩ := mem_groups hfield
      have hmask : maskingSet met field.1 = set.targets := by simpa using (List.mem_filter.1 hkeys).2
      refine ⟨htargets, fun hinitial hzero => ?_, fun u hu hancestors hzero => ?_⟩
      · rw [← hmask]
        exact maskingSet_initial ((hgroups hfield _).1 hinitial) fun t ht => hzero t ((hgroups hfield t).2 ht)
      · rw [← hmask]
        exact id_mem_maskingSet ((hgroups hfield _).1 hu) hancestors fun t ht => hzero t ((hgroups hfield t).2 ht)

end Occurrence

namespace Collector

variable {collector : Collector} {c : CollectionContext}

/-- What a collection from some targets gives, below fields that are delivered in a set of targets, with the collector
after it. -/
structure Gives (collector : Collector) (reached : List Target) (parent : TargetSet)
    (outcome : Except CollectionError CollectedFields) (collector' : Collector) : Prop where
  fits : ∀ collected, outcome = .ok collected → collected.Fits collector.nextUsage reached parent
  ids : ∀ collected, outcome = .ok collected →
    collected.allFields.map (·.2.id) = List.range' collector.nextGroup collected.allFields.length ∧
      collector'.nextGroup = collector.nextGroup + collected.allFields.length
  usages : ∀ collected, outcome = .ok collected →
    collector'.nextUsage = collector.nextUsage + collected.newUsages.length
  nextGroup : collector.nextGroup ≤ collector'.nextGroup
  nextUsage : collector.nextUsage ≤ collector'.nextUsage
  collected : collector'.collected = collector.collected

/-- Keys differ in each set that a walk ends with. -/
theorem nodup_finish {parent : TargetSet} {outcome : Except CollectionError Unit × CollectionWalk}
    {collected : CollectedFields} (h : (collector.finish parent outcome).1 = .ok collected) {fields : GroupedFieldSet}
    (hfields : fields = collected.fields ∨ ∃ set ∈ collected.newSets, fields = set.fields) :
    (fields.map Prod.fst).Nodup := by
  obtain ⟨result, walk⟩ := outcome
  cases result with
  | error e => exact absurd h (by simp [finish])
  | ok =>
    cases h
    exact Occurrence.nodup_partition hfields

private theorem finish_gives {m : CollectM Unit} {reached : List Target} {parent : TargetSet}
    (hkeeps : m.Keeps collector.nextUsage reached { nextUsage := collector.nextUsage } fun _ _ => True) :
    collector.Gives reached parent (collector.finish parent (m.run.run { nextUsage := collector.nextUsage })).1
      (collector.finish parent (m.run.run { nextUsage := collector.nextUsage })).2 := by
  have hstart : CollectionWalk.Known collector.nextUsage reached { nextUsage := collector.nextUsage } :=
    ⟨⟨fun i u hu => absurd hu (by simp), fun i u hu => absurd hu (by simp)⟩, rfl, fun o ho => absurd ho (by simp)⟩
  obtain ⟨hknown, -, -⟩ := hkeeps hstart
  rcases hm : m.run.run { nextUsage := collector.nextUsage } with ⟨r, w⟩
  rw [hm] at hknown
  have hnext : collector.nextUsage ≤ w.nextUsage := by
    rw [hknown.next]
    exact Nat.le_add_right _ _
  cases r with
  | error e =>
    exact ⟨fun _ heq => absurd heq (by simp [finish]), fun _ heq => absurd heq (by simp [finish]),
      fun _ heq => absurd heq (by simp [finish]), Nat.le_refl _, hnext, rfl⟩
  | ok =>
    have hfits : (Occurrence.partition w.met parent collector.nextGroup w.newUsages).1.Fits _ reached parent :=
      Occurrence.fits_partition hknown.usages hknown.met _
    obtain ⟨hids, hgroup⟩ := @Occurrence.ids_partition w.met parent collector.nextGroup w.newUsages
    refine ⟨fun _ heq => ?_, fun _ heq => ?_, fun _ heq => ?_, ?_, hnext, rfl⟩
    · cases heq
      exact hfits
    · cases heq
      exact ⟨hids, hgroup⟩
    · cases heq
      exact hknown.next
    · exact Nat.le_trans (Nat.le_add_right _ _) (Nat.le_of_eq hgroup.symm)

/-- What is collected below a group. -/
theorem collectBelow_gives (collector : Collector) (c : CollectionContext) (objectType : String) (group : FieldGroup) :
    collector.Gives group.reached group.targets (collector.collectBelow c objectType group).1
      (collector.collectBelow c objectType group).2 := by
  refine finish_gives (CollectM.Keeps.forM group.fields fun details hdetails w _ => ?_)
  split
  · exact c.keeps_walk objectType _ (Or.inl (List.mem_map_of_mem hdetails)) _
  · exact CollectM.Keeps.pure trivial

/-- What is collected for an operation. -/
theorem collectFields_gives (collector : Collector) (c : CollectionContext) (objectType : String)
    (selections : List Selection) :
    collector.Gives [.initial] .initial (collector.collectFields c objectType selections).1
      (collector.collectFields c objectType selections).2 :=
  finish_gives (m := c.walk objectType (c.depthBound selections) .initial selections)
    (c.keeps_walk objectType _ (Or.inl List.mem_cons_self) selections)

end Collector

end GraphQL
