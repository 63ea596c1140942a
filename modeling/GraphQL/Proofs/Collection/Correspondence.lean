import GraphQL.Proofs.Collection.Partition
import GraphQL.Proofs.Collection.Renumbering

/-!
# Collections that correspond

Two collections below groups that stand for each other, with different numbers to hand out, fail alike or find the same in
targets that stand for each other: the fields that stay with those around them, the new sets, and the new uses of `@defer`
(`Collector.collectBelow_corresponds`).  What was met in the initial result stays with it (`FieldGroup.Placed`), so a new
set has a target, and the initial result is none of its targets (`Collector.placed_collectBelow`).
-/

namespace GraphQL

variable {R S : Target → Target → Prop}

/-! ### What corresponds -/

/-- Groups of the same fields, met and delivered in targets that stand for each other. -/
structure FieldGroup.Corresponds (R : Target → Target → Prop) (g g' : FieldGroup) : Prop where
  targets : List.Forall₂ R g.targets.targets g'.targets.targets
  fields : List.Forall₂ (FieldDetails.Alike R) g.fields g'.fields

/-- Groups that correspond under the same keys. -/
def GroupedFieldSet.Corresponds (R : Target → Target → Prop) (fields fields' : GroupedFieldSet) : Prop :=
  List.Forall₂ (fun field field' => field.1 = field'.1 ∧ field.2.Corresponds R field'.2) fields fields'

/-- Sets of the same fields, delivered in targets that stand for each other. -/
structure NewFieldSet.Corresponds (R : Target → Target → Prop) (set set' : NewFieldSet) : Prop where
  targets : List.Forall₂ R set.targets.targets set'.targets.targets
  fields : GroupedFieldSet.Corresponds R set.fields set'.fields
  initiatesDefer : set.initiatesDefer = set'.initiatesDefer

/-- The same was collected, in targets that stand for each other. -/
structure CollectedFields.Corresponds (R : Target → Target → Prop) (collected collected' : CollectedFields) : Prop where
  fields : GroupedFieldSet.Corresponds R collected.fields collected'.fields
  newSets : List.Forall₂ (NewFieldSet.Corresponds R) collected.newSets collected'.newSets
  newUsages : List.Forall₂ (DeferUsage.Alike R) collected.newUsages collected'.newUsages

namespace FieldGroup.Corresponds

variable {g g' : FieldGroup}

theorem nodes (h : g.Corresponds R g') : g.nodes = g'.nodes := by
  unfold FieldGroup.nodes
  rw [← List.forall₂_eq_eq_eq]
  exact List.rel_map (fun _ _ hd => hd.1) h.fields

theorem first (h : g.Corresponds R g') : g.first.node = g'.first.node := by
  cases h.fields with
  | cons hfirst _ => exact hfirst.1

theorem reached (h : g.Corresponds R g') : List.Forall₂ R g.reached g'.reached :=
  List.rel_map (fun _ _ hd => hd.2) h.fields

/-- Only the targets in which fields were met count. -/
theorem restrict (h : g.Corresponds R g') (hg : g.Grounded) (hg' : g'.Grounded) :
    g.Corresponds (fun t t' => R t t' ∧ t ∈ g.reached ∧ t' ∈ g'.reached) g' := by
  refine ⟨?_, ?_⟩
  · have hmem := ((List.forall₂_and_left _ _).2 ⟨fun t ht => hg.targets ht, h.targets⟩).flip
    have hmem' := ((List.forall₂_and_left _ _).2 ⟨fun t ht => hg'.targets ht, hmem⟩).flip
    exact hmem'.imp fun t t' ht => ⟨ht.2.2, ht.2.1, ht.1⟩
  · have hmem := ((List.forall₂_and_left _ _).2 ⟨fun d hd => hd, h.fields⟩).flip
    have hmem' := ((List.forall₂_and_left _ _).2 ⟨fun d hd => hd, hmem⟩).flip
    exact hmem'.imp fun d d' hd => ⟨hd.2.2.1, hd.2.2.2, List.mem_map_of_mem hd.2.1, List.mem_map_of_mem hd.1⟩

end FieldGroup.Corresponds

/-- A group corresponds to itself. -/
theorem FieldGroup.Grounded.corresponds {g : FieldGroup} (h : g.Grounded) :
    g.Corresponds (fun t t' => t = t' ∧ t.Nested) g :=
  ⟨List.forall₂_same.2 fun t ht => ⟨rfl, h.nested t (h.targets ht)⟩,
    List.forall₂_same.2 fun _ hd => ⟨rfl, rfl, h.nested _ (List.mem_map_of_mem hd)⟩⟩

/-- An element has a counterpart in a list that stands for its list. -/
theorem exists_of_forall₂ {α β : Type} {P : α → β → Prop} {xs : List α} {ys : List β} (h : List.Forall₂ P xs ys)
    {x : α} (hx : x ∈ xs) : ∃ y ∈ ys, P x y := by
  induction h with
  | nil => exact absurd hx List.not_mem_nil
  | cons hxy _ ih =>
    rcases List.mem_cons.1 hx with rfl | hx
    · exact ⟨_, List.mem_cons_self, hxy⟩
    · obtain ⟨y, hy, hxy⟩ := ih hx
      exact ⟨y, List.mem_cons_of_mem _ hy, hxy⟩

/-! ### Sorting -/

namespace TargetSet

/-- Targets that stand for each other are in sets that do, or not. -/
theorem contains_corresponds (hR : Target.Matching R) {s s' : TargetSet} (h : List.Forall₂ R s.targets s'.targets)
    {t t' : Target} (ht : R t t') : s.contains t = s'.contains t' := by
  have hcontains : ∀ (s : TargetSet) (t : Target), s.contains t = true ↔ ∃ u ∈ s.targets, u.id = t.id := by
    intro s t
    rw [contains, List.contains_eq_mem, decide_eq_true_eq, ids, List.mem_map]
  rw [Bool.eq_iff_iff, hcontains, hcontains]
  constructor
  · rintro ⟨u, hu, heq⟩
    obtain ⟨u', hu', hR'⟩ := exists_of_forall₂ h hu
    exact ⟨u', hu', (hR.id_eq hR' ht).1 heq⟩
  · rintro ⟨u', hu', heq⟩
    obtain ⟨u, hu, hR'⟩ := exists_of_forall₂ h.flip hu'
    exact ⟨u, hu, (hR.id_eq hR' ht).2 heq⟩

end TargetSet

namespace Occurrence

variable {met met' : List Occurrence} (hR : Target.Matching R) (h : List.Forall₂ (Occurrence.Alike R) met met')
include hR h

theorem groups_corresponds {parent parent' : TargetSet} (hparent : List.Forall₂ R parent.targets parent'.targets)
    (next next' : Nat) (keys : List String) :
    GroupedFieldSet.Corresponds R (groups met parent next keys) (groups met' parent' next' keys) := by
  induction keys generalizing next next' with
  | nil => exact .nil
  | cons key rest ih =>
    have hdetails := details_alike h hR key
    unfold groups
    generalize details met key = found at hdetails
    generalize details met' key = found' at hdetails
    cases hdetails with
    | nil => exact ih next next'
    | cons hfirst hothers => exact .cons ⟨rfl, hparent, .cons hfirst hothers⟩ (ih (next + 1) (next' + 1))

omit h in
/-- Sets of targets that stand for each other are equal to sets that stand for each other, or not. -/
private theorem targetSet_eq_iff {s s' u u' : TargetSet} (hs : List.Forall₂ R s.targets s'.targets)
    (hu : List.Forall₂ R u.targets u'.targets) : s = u ↔ s' = u' := by
  have hiff := forall₂_eq_iff hR.eq hs hu
  rw [← TargetSet.mk.injEq, ← TargetSet.mk.injEq] at hiff
  exact hiff

theorem newTargetSets_corresponds {parent parent' : TargetSet} (hparent : List.Forall₂ R parent.targets parent'.targets) :
    List.Forall₂ (fun s s' => List.Forall₂ R s.targets s'.targets) (newTargetSets met parent) (newTargetSets met' parent') := by
  unfold newTargetSets
  refine forall₂_eraseDups (fun hs hu => targetSet_eq_iff hR hs hu) (List.rel_filter (fun s s' hs => ?_) ?_)
  · simpa using not_congr (targetSet_eq_iff hR hs hparent)
  · rw [keys_eq h]
    exact List.rel_map (R := (· = ·)) (fun key key' heq => heq ▸ maskingSet_alike h hR key) (List.forall₂_same.2 fun _ _ => rfl)

theorem newSets_corresponds {parent parent' : TargetSet} (hparent : List.Forall₂ R parent.targets parent'.targets)
    (next next' : Nat) {sets sets' : List TargetSet}
    (hsets : List.Forall₂ (fun s s' => List.Forall₂ R s.targets s'.targets) sets sets') :
    List.Forall₂ (NewFieldSet.Corresponds R) (newSets met parent next sets) (newSets met' parent' next' sets') := by
  induction hsets generalizing next next' with
  | nil => exact .nil
  | @cons s s' sets sets' hs _ ih =>
    refine .cons ⟨hs, ?_, ?_⟩ (ih _ _)
    · rw [keysOf_eq h hR hs]
      exact groups_corresponds hR h hs next next' _
    · show (s.targets.any fun t => !parent.contains t) = s'.targets.any fun t => !parent'.contains t
      generalize s.targets = ts at hs
      generalize s'.targets = ts' at hs
      induction hs with
      | nil => rfl
      | cons ht _ ih => rw [List.any_cons, List.any_cons, TargetSet.contains_corresponds hR hparent ht, ih]

theorem partition_corresponds {parent parent' : TargetSet} (hparent : List.Forall₂ R parent.targets parent'.targets)
    (next next' : Nat) {usages usages' : List DeferUsage} (husages : List.Forall₂ (DeferUsage.Alike R) usages usages') :
    (partition met parent next usages).1.Corresponds R (partition met' parent' next' usages').1 := by
  refine ⟨?_, newSets_corresponds hR h hparent _ _ (newTargetSets_corresponds hR h hparent), husages⟩
  show GroupedFieldSet.Corresponds R (groups met parent next (keysOf met parent)) _
  rw [keysOf_eq h hR hparent]
  exact groups_corresponds hR h hparent next next' _

end Occurrence

/-! ### Collections -/

/-- Collections that fail alike, or find the same in targets that stand for each other, among them those that did. -/
def CollectedFields.Outcomes (R : Target → Target → Prop) (outcome outcome' : Except CollectionError CollectedFields) : Prop :=
  (∃ e, outcome = .error e ∧ outcome' = .error e) ∨
    ∃ collected collected' S, outcome = .ok collected ∧ outcome' = .ok collected' ∧ Target.Matching S ∧
      (∀ {t t'}, R t t' → S t t') ∧ collected.Corresponds S collected'

namespace Collector

variable {c : CollectionContext} {collector collector' : Collector} {g g' : FieldGroup}

private theorem finish_corresponds {m m' : CollectM Unit} {parent parent' : TargetSet} (hR : Target.Matching R)
    (hbelow : Target.Below collector.nextUsage collector'.nextUsage R)
    (hparent : List.Forall₂ R parent.targets parent'.targets)
    (h : CollectM.Alike R m { nextUsage := collector.nextUsage } m' { nextUsage := collector'.nextUsage }
      fun _ _ _ _ _ => True) :
    CollectedFields.Outcomes R (collector.finish parent (m.run.run { nextUsage := collector.nextUsage })).1
      (collector'.finish parent' (m'.run.run { nextUsage := collector'.nextUsage })).1 := by
  have hwalks := h ⟨.nil, .nil, rfl, hR, hbelow⟩
  rcases hm : m.run.run { nextUsage := collector.nextUsage } with ⟨r, w⟩
  rcases hm' : m'.run.run { nextUsage := collector'.nextUsage } with ⟨r', w'⟩
  rw [hm, hm'] at hwalks
  rcases hwalks with ⟨e, rfl, rfl⟩ | ⟨_, _, S, rfl, rfl, hle, hw, -⟩
  · exact .inl ⟨e, rfl, rfl⟩
  · exact .inr ⟨_, _, S, rfl, rfl, hw.matching, hle,
      Occurrence.partition_corresponds hw.matching hw.met (hparent.imp fun _ _ ht => hle ht) _ _ hw.usages⟩

/-- Below groups that correspond, what is collected corresponds. -/
theorem collectBelow_corresponds (hR : Target.Matching R) (h : g.Corresponds R g') (hg : g.Grounded) (hg' : g'.Grounded)
    (hprecedes : g.Precedes collector) (hprecedes' : g'.Precedes collector') (objectType : String) :
    CollectedFields.Outcomes (fun t t' => R t t' ∧ t ∈ g.reached ∧ t' ∈ g'.reached)
      (collector.collectBelow c objectType g).1 (collector'.collectBelow c objectType g').1 := by
  have hrestrict := h.restrict hg hg'
  unfold collectBelow
  refine finish_corresponds (hR.mono And.left) (fun ht => ?_) hrestrict.targets (c.alike_below objectType hrestrict.fields)
  exact ⟨id_lt_of_precedes hprecedes _ ht.2.1, id_lt_of_precedes hprecedes' _ ht.2.2⟩

/-- What is collected for an operation corresponds. -/
theorem collectFields_corresponds (hpositive : 0 < collector.nextUsage) (hpositive' : 0 < collector'.nextUsage)
    (objectType : String) (selections : List Selection) :
    CollectedFields.Outcomes (fun t t' => t = .initial ∧ t' = .initial) (collector.collectFields c objectType selections).1
      (collector'.collectFields c objectType selections).1 := by
  refine finish_corresponds Target.Matching.initial (fun ht => ?_) (.cons ⟨rfl, rfl⟩ .nil)
    (c.alike_walk objectType (c.depthBound selections) ⟨rfl, rfl⟩ selections)
  rw [ht.1, ht.2]
  exact ⟨hpositive, hpositive'⟩

end Collector

/-! ### What was met in the initial result -/

/-- The fields of the group that were met in the initial result are delivered in it, and the others stand in it. -/
structure FieldGroup.Placed (g : FieldGroup) : Prop extends g.Grounded where
  initial : .initial ∈ g.reached → g.targets = .initial
  zero : ∀ t ∈ g.reached, t ≠ .initial → 0 ∈ t.ancestors

/-- New sets are delivered somewhere, but not in the initial result. -/
structure NewFieldSet.Placed (set : NewFieldSet) : Prop where
  targets : set.targets.targets ≠ []
  initial : .initial ∉ set.targets.targets

namespace Occurrence

variable {met : List Occurrence} {key : String}

/-- One of the targets of a key has none of the others around it. -/
theorem maskingSet_ne_nil (hkey : targetsOf met key ≠ []) (hnested : ∀ t ∈ targetsOf met key, t.Nested) :
    (maskingSet met key).targets ≠ [] := by
  -- by induction on the id, since the targets around a target have smaller ones
  have hall : ∀ (n : Nat) (t : Target), t.id < n → t ∈ targetsOf met key → ∃ u, u ∈ maskingTargets met key := by
    intro n
    induction n with
    | zero => exact fun t hlt => absurd hlt (Nat.not_lt_zero _)
    | succ n ih =>
      intro t hlt ht
      by_cases hmask : t ∈ maskingTargets met key
      · exact ⟨t, hmask⟩
      · obtain ⟨u, hu, hmem⟩ : ∃ u ∈ targetsOf met key, u.id ∈ t.ancestors := by
          by_contra hnone
          exact hmask (mem_maskingTargets.2 ⟨ht, fun u hu hmem => hnone ⟨u, hu, hmem⟩⟩)
        exact ih u (Nat.lt_of_lt_of_le (hnested t ht _ hmem) (Nat.le_of_lt_succ hlt)) hu
  obtain ⟨t, ht⟩ := List.exists_mem_of_ne_nil _ hkey
  obtain ⟨u, hu⟩ := hall (t.id + 1) t (Nat.lt_succ_self _) ht
  have hid := TargetSet.id_mem_ofList hu
  intro hnil
  rw [TargetSet.ids, show TargetSet.targets (.ofList (maskingTargets met key)) = [] from hnil] at hid
  exact absurd hid List.not_mem_nil

/-- A group is delivered somewhere. -/
theorem targets_ne_nil {parent : TargetSet} {next : Nat} {usages : List DeferUsage} {field : String × FieldGroup}
    (h : field ∈ (partition met parent next usages).1.allFields) (hnested : ∀ t ∈ field.2.reached, t.Nested) :
    field.2.targets.targets ≠ [] := by
  obtain ⟨hfields, htargets, -⟩ := mem_allFields h
  have hmem : ∀ t, t ∈ field.2.reached ↔ t ∈ targetsOf met field.1 := by
    intro t
    rw [FieldGroup.reached, hfields]
    exact mem_map_details
  rw [htargets]
  refine maskingSet_ne_nil (fun hnil => ?_) fun t ht => hnested t ((hmem t).2 ht)
  exact List.not_mem_nil (hnil ▸ (hmem field.2.first.target).1 List.mem_cons_self)

/-- There is a field in each new set. -/
theorem exists_mem_newSet {parent : TargetSet} {next : Nat} {usages : List DeferUsage} {set : NewFieldSet}
    (h : set ∈ (partition met parent next usages).1.newSets) : ∃ field, field ∈ set.fields := by
  obtain ⟨-, -, ⟨key, hkey, hmask⟩, next', hfields⟩ := mem_newSets_partition h
  have hmem := mem_keysOf.2 ⟨hkey, hmask⟩
  rw [← keys_groups set.targets next' (keysOf_subset set.targets), ← hfields] at hmem
  obtain ⟨field, hfield, -⟩ := List.mem_map.1 hmem
  exact ⟨field, hfield⟩

end Occurrence

namespace Collector

variable {c : CollectionContext} {collector : Collector} {g : FieldGroup} {objectType : String} {collected : CollectedFields}

private theorem placed_finish {reached : List Target} {parent : TargetSet} {outcome : Except CollectionError Unit × CollectionWalk}
    (h : collector.Gives reached parent (collector.finish parent outcome).1 (collector.finish parent outcome).2)
    (hzero : ∀ t ∈ reached, t ≠ .initial → 0 ∈ t.ancestors) (hparent : .initial ∈ reached → parent = .initial)
    (hcollected : (collector.finish parent outcome).1 = .ok collected)
    (hgrounded : ∀ field ∈ collected.allFields, field.2.Grounded) :
    (∀ field ∈ collected.allFields, field.2.Placed) ∧ ∀ set ∈ collected.newSets, set.Placed := by
  have hfits := h.fits collected hcollected
  obtain ⟨hsome, hne⟩ : (∀ set ∈ collected.newSets, ∃ field, field ∈ set.fields) ∧
      ∀ field ∈ collected.allFields, field.2.targets.targets ≠ [] := by
    obtain ⟨result, walk⟩ := outcome
    cases result with
    | error e => exact absurd hcollected (by simp [finish])
    | ok =>
      cases hcollected
      exact ⟨fun set hset => Occurrence.exists_mem_newSet hset,
        fun field hfield => Occurrence.targets_ne_nil hfield (hgrounded field hfield).nested⟩
  have hall : ∀ field ∈ collected.allFields, ∀ t ∈ field.2.reached, t ≠ .initial → 0 ∈ t.ancestors := by
    intro field hfield t ht hinitial
    rcases hfits.reaches field hfield t ht with ht | ⟨u, hu, rfl⟩
    · exact hzero t ht hinitial
    · exact hfits.usages.zero_mem_ancestors hzero hu
  have hstart : ∀ field ∈ collected.allFields, .initial ∈ field.2.reached → parent = .initial := by
    intro field hfield hmem
    rcases hfits.reaches field hfield _ hmem with hmem | ⟨u, -, heq⟩
    · exact hparent hmem
    · exact absurd heq (by simp)
  have hmem : ∀ set ∈ collected.newSets, ∀ field ∈ set.fields, field ∈ collected.allFields := fun set hset field hfield =>
    List.mem_append_right _ (List.mem_flatMap.2 ⟨set, hset, hfield⟩)
  -- a field of a new set that was met in the initial result would stay with the fields around it
  have hnot : ∀ set ∈ collected.newSets, ∀ field ∈ set.fields, .initial ∉ field.2.reached := by
    intro set hset field hfield hinitial
    obtain ⟨hother, -, hfields⟩ := hfits.others set hset
    have hfield' := hmem set hset field hfield
    exact hother (((hfields field hfield).2.1 hinitial (hall field hfield')).trans (hstart field hfield' hinitial).symm)
  refine ⟨fun field hfield => ⟨hgrounded field hfield, fun hinitial => ?_, hall field hfield⟩, fun set hset => ?_⟩
  · rcases List.mem_append.1 hfield with hown | hother
    · exact (hfits.own field hown).trans (hstart field hfield hinitial)
    · obtain ⟨set, hset, hfield⟩ := List.mem_flatMap.1 hother
      exact absurd hinitial (hnot set hset field hfield)
  · obtain ⟨field, hfield⟩ := hsome set hset
    have htargets := ((hfits.others set hset).2.2 field hfield).1
    have hfield' := hmem set hset field hfield
    refine ⟨htargets ▸ hne field hfield', fun hinitial => hnot set hset field hfield ?_⟩
    exact (hgrounded field hfield').targets (htargets ▸ hinitial)

/-- What is collected below a group whose fields are placed is placed. -/
theorem placed_collectBelow (hg : g.Placed) (hprecedes : g.Precedes collector)
    (h : (collector.collectBelow c objectType g).1 = .ok collected) :
    (∀ field ∈ collected.allFields, field.2.Placed) ∧ ∀ set ∈ collected.newSets, set.Placed :=
  placed_finish (collector.collectBelow_gives c objectType g) hg.zero hg.initial h
    (grounded_collectBelow hg.toGrounded hprecedes h)

/-- What is collected for an operation is placed. -/
theorem placed_collectFields {selections : List Selection} (hpositive : 0 < collector.nextUsage)
    (h : (collector.collectFields c objectType selections).1 = .ok collected) :
    (∀ field ∈ collected.allFields, field.2.Placed) ∧ ∀ set ∈ collected.newSets, set.Placed :=
  placed_finish (collector.collectFields_gives c objectType selections)
    (fun _ ht hinitial => absurd (List.mem_singleton.1 ht) hinitial) (fun _ => rfl) h (grounded_collectFields hpositive h)

end Collector

end GraphQL
