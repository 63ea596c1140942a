import GraphQL.Execution.Completion
import GraphQL.Proofs.Collection.Partition

/-!
# Groups that a collector hands out

All targets of the groups that one collector hands out are known by their ids, and the groups by theirs
(`Collector.Keeping`).  So whatever is collected for an operation or below such a group, now or earlier for the same group, is
a partition of what the recursion meets there (`Collector.Produces.sorts`).
-/

namespace GraphQL

/-- What is collected along selections is a partition of what is met along them, below fields that are delivered in the
targets `parent`. -/
def CollectionContext.Sorts (c : CollectionContext) (objectType : String) (work : List (Target × Selection))
    (parent : TargetSet) (collected : CollectedFields) : Prop :=
  ∃ next met visited, c.Meets objectType work [] next met collected.newUsages visited ∧ collected.Partitions parent met

/-- The fields of a group as they are met in the initial result, in a group of its own. -/
def FieldGroup.initially (group : FieldGroup) (id : Nat) : FieldGroup where
  id := id
  first := { group.first with target := .initial }
  others := group.others.map fun details => { details with target := .initial }
  targets := .initial

theorem FieldGroup.reached_initially (group : FieldGroup) (id : Nat) : ∀ t ∈ (group.initially id).reached, t = .initial := by
  intro t ht
  simp only [FieldGroup.reached, FieldGroup.fields, FieldGroup.initially, List.map_cons, List.map_map, List.mem_cons,
    List.mem_map] at ht
  rcases ht with rfl | ⟨d, -, rfl⟩
  · rfl
  · rfl

/-- This is the group with which the items of a list are streamed. -/
theorem FieldGroup.initially_of_newStreamUsage {c : ExecutionContext} {group : FieldGroup} {id : Nat} {usage : StreamUsage}
    (h : Execution.newStreamUsage c group id = .ok (some usage)) : usage.group = group.initially id := by
  unfold Execution.newStreamUsage at h
  split at h
  · cases h
  · split at h
    · cases h
    · cases h
    · dsimp only at h
      split at h
      · cases h
      · split at h
        · cases h
        · cases h
          rfl

namespace Collector

/-- The groups that a collection hands out. -/
def groupsOf : Except CollectionError CollectedFields → List FieldGroup
  | .ok collected => collected.allFields.map Prod.snd
  | .error _ => []

/-- A collector that was used for operations, and for groups that it handed out, has handed out the groups. -/
inductive Produces (c : CollectionContext) : Collector → List FieldGroup → Prop
  | start : Produces c {} []
  | fields {collector groups objectType selections outcome collector'} (h : Produces c collector groups)
      (hrun : collector.collectFields c objectType selections = (outcome, collector')) :
      Produces c collector' (groupsOf outcome ++ groups)
  | subfields {collector groups objectType group outcome collector'} (h : Produces c collector groups)
      (hgroup : group ∈ groups) (hrun : collector.collectSubfields c objectType group = (outcome, collector')) :
      Produces c collector' (groupsOf outcome ++ groups)
  | initially {collector groups group} (h : Produces c collector groups) (hgroup : group ∈ groups) :
      Produces c { collector with nextGroup := collector.nextGroup + 1 } (group.initially collector.nextGroup :: groups)

/-- A collector knows the targets and the groups that it handed out, and remembers what it collected below them. -/
structure Keeping (c : CollectionContext) (collector : Collector) (groups : List FieldGroup) : Prop where
  lineage : ∃ issued, Lineage collector.nextUsage issued ∧ ∀ g ∈ groups, ∀ t ∈ g.reached, Reaches [.initial] issued t
  numbered : ∀ g ∈ groups, g.id < collector.nextGroup
  unique : ∀ g ∈ groups, ∀ g' ∈ groups, g.id = g'.id → g = g'
  targets : ∀ g ∈ groups, g.targets.targets ⊆ g.reached ∧ g.targets.targets.Pairwise fun t u => t.id < u.id
  memory : ∀ entry ∈ collector.collected, ∃ g ∈ groups, g.id = entry.1.2 ∧ c.Sorts entry.1.1 g.below g.targets entry.2 ∧
    entry.2.allFields.map Prod.snd ⊆ groups

variable {c : CollectionContext} {collector collector' : Collector} {groups : List FieldGroup} {objectType : String}

theorem Keeping.start : Keeping c {} [] :=
  ⟨⟨[], .start, fun _ h => absurd h List.not_mem_nil⟩, fun _ h => absurd h List.not_mem_nil,
    fun _ h => absurd h List.not_mem_nil, fun _ h => absurd h List.not_mem_nil, fun _ h => absurd h List.not_mem_nil⟩

/-- Groups that are handed out again. -/
theorem Keeping.again (h : Keeping c collector groups) {more : List FieldGroup} (hmore : more ⊆ groups) :
    Keeping c collector (more ++ groups) := by
  have hall : more ++ groups ⊆ groups := List.append_subset.2 ⟨hmore, List.Subset.refl _⟩
  obtain ⟨issued, hissued, hreached⟩ := h.lineage
  refine ⟨⟨issued, hissued, fun g hg => hreached g (hall hg)⟩, fun g hg => h.numbered g (hall hg),
    fun g hg g' hg' => h.unique g (hall hg) g' (hall hg'), fun g hg => h.targets g (hall hg), fun entry hentry => ?_⟩
  obtain ⟨g, hg, hid, hsorts, hsubset⟩ := h.memory entry hentry
  exact ⟨g, List.mem_append_right _ hg, hid, hsorts, List.Subset.trans hsubset (List.subset_append_right _ _)⟩

/-- Numbers that are used up. -/
theorem Keeping.skip (h : Keeping c collector groups) (husage : collector.nextUsage ≤ collector'.nextUsage)
    (hgroup : collector.nextGroup ≤ collector'.nextGroup) (hcollected : collector'.collected = collector.collected) :
    Keeping c collector' groups := by
  obtain ⟨issued, hissued, hreached⟩ := h.lineage
  exact ⟨⟨issued, hissued.mono husage, hreached⟩, fun g hg => Nat.lt_of_lt_of_le (h.numbered g hg) hgroup, h.unique, h.targets,
    hcollected.symm ▸ h.memory⟩

/-- Groups that are handed out for the first time. -/
theorem Keeping.hand (h : Keeping c collector groups) {more : List FieldGroup}
    (hids : more.map FieldGroup.id = List.range' collector.nextGroup more.length)
    (hnext : collector'.nextGroup = collector.nextGroup + more.length)
    (htargets : ∀ g ∈ more, g.targets.targets ⊆ g.reached ∧ g.targets.targets.Pairwise fun t u => t.id < u.id)
    {issued : List DeferUsage} (hlineage : Lineage collector'.nextUsage issued)
    (hreached : ∀ g ∈ more ++ groups, ∀ t ∈ g.reached, Reaches [.initial] issued t)
    (hcollected : collector'.collected = collector.collected) : Keeping c collector' (more ++ groups) := by
  have hnew : ∀ g ∈ more, collector.nextGroup ≤ g.id ∧ g.id < collector'.nextGroup := by
    intro g hg
    have hid : g.id ∈ more.map FieldGroup.id := List.mem_map_of_mem hg
    rwa [hids, List.mem_range'_1, ← hnext] at hid
  have hdiffer : (more.map FieldGroup.id).Nodup := hids ▸ List.nodup_range'
  refine ⟨⟨issued, hlineage, hreached⟩, fun g hg => ?_, fun g hg g' hg' hid => ?_, fun g hg => ?_, fun entry hentry => ?_⟩
  · rcases List.mem_append.1 hg with hg | hg
    · exact (hnew g hg).2
    · have := h.numbered g hg
      omega
  · rcases List.mem_append.1 hg with hg | hg <;> rcases List.mem_append.1 hg' with hg' | hg'
    · exact List.inj_on_of_nodup_map hdiffer hg hg' hid
    · have := h.numbered g' hg'
      have := hnew g hg
      omega
    · have := h.numbered g hg
      have := hnew g' hg'
      omega
    · exact h.unique g hg g' hg' hid
  · exact (List.mem_append.1 hg).elim (htargets g) (h.targets g)
  · rw [hcollected] at hentry
    obtain ⟨g, hg, hid, hsorts, hsubset⟩ := h.memory entry hentry
    exact ⟨g, List.mem_append_right _ hg, hid, hsorts, List.Subset.trans hsubset (List.subset_append_right _ _)⟩

/-- What is collected below a group is remembered. -/
theorem Keeping.remember (h : Keeping c collector groups) {group : FieldGroup} (hgroup : group ∈ groups)
    {collected : CollectedFields} (hsorts : c.Sorts objectType group.below group.targets collected)
    (hsubset : collected.allFields.map Prod.snd ⊆ groups) :
    Keeping c { collector with collected := ((objectType, group.id), collected) :: collector.collected } groups :=
  ⟨h.lineage, h.numbered, h.unique, h.targets, List.forall_mem_cons.2 ⟨⟨group, hgroup, rfl, hsorts, hsubset⟩, h.memory⟩⟩

/-- The group of a list that is streamed. -/
theorem Keeping.initially (h : Keeping c collector groups) (group : FieldGroup) :
    Keeping c { collector with nextGroup := collector.nextGroup + 1 } (group.initially collector.nextGroup :: groups) := by
  have hreached := group.reached_initially collector.nextGroup
  obtain ⟨issued, hissued, hgroups⟩ := h.lineage
  have hids : [group.initially collector.nextGroup].map FieldGroup.id = List.range' collector.nextGroup 1 := rfl
  refine h.hand hids rfl (fun g hg => ?_) hissued (List.forall_mem_cons.2 ⟨fun t ht => ?_, hgroups⟩) rfl
  · rw [List.mem_singleton.1 hg]
    refine ⟨fun t ht => ?_, List.pairwise_singleton _ _⟩
    rw [List.mem_singleton.1 ht]
    exact List.mem_cons_self
  · rw [hreached t ht]
    exact .inl (List.mem_singleton_self _)

/-- A collection from targets that are known, which succeeds, is a partition, and its targets and groups are known then. -/
theorem Keeping.finish (h : Keeping c collector groups) {issued : List DeferUsage} (hissued : Lineage collector.nextUsage issued)
    (hgroups : ∀ g ∈ groups, ∀ t ∈ g.reached, Reaches [.initial] issued t)
    {work : List (Target × Selection)} (hwork : ∀ x ∈ work, Reaches [.initial] issued x.1) {parent : TargetSet}
    (hparent : ∀ t ∈ parent.targets, Reaches [.initial] issued t)
    (hordered : parent.targets.Pairwise fun t u => t.id < u.id) {outcome : Except CollectionError Unit × CollectionWalk}
    (hruns : c.Runs objectType work { nextUsage := collector.nextUsage } outcome) {collected : CollectedFields}
    (hfinish : collector.finish parent outcome = (.ok collected, collector')) :
    c.Sorts objectType work parent collected ∧ Keeping c collector' (collected.allFields.map Prod.snd ++ groups) := by
  obtain ⟨result, w⟩ := outcome
  cases result with
  | error e => exact absurd (congrArg Prod.fst hfinish) (by simp [Collector.finish])
  | ok =>
    obtain ⟨met, usages, hmeets, hmet, husages, hnext⟩ := hruns.meets
    obtain ⟨hlineage, hreached⟩ := hmeets.lineage hissued hwork
    rw [List.nil_append] at hmet husages
    simp only [Collector.finish, hmet, husages, Prod.mk.injEq, Except.ok.injEq] at hfinish
    obtain ⟨rfl, rfl⟩ := hfinish
    obtain ⟨hids, hnextGroup⟩ := @Occurrence.ids_partition met parent collector.nextGroup usages
    have hpartitions : (Occurrence.partition met parent collector.nextGroup usages).1.Partitions parent met :=
      Occurrence.partitions hlineage hreached (fun t ht => (hparent t ht).mono (List.prefix_append _ _)) hordered _
    have hsubset := fun field => @Occurrence.targets_subset_of_partition met parent collector.nextGroup usages field
    have hfields : ∀ field ∈ (Occurrence.partition met parent collector.nextGroup usages).1.allFields,
        (∀ t ∈ field.2.reached, Reaches [.initial] (issued ++ usages) t) ∧
          field.2.targets.targets.Pairwise fun t u => t.id < u.id := by
      intro field hfield
      obtain ⟨hdetails, htargets, -⟩ := Occurrence.mem_allFields hfield
      rw [FieldGroup.reached, hdetails, htargets]
      exact ⟨fun t ht => Occurrence.reaches_targetsOf hreached (Occurrence.mem_map_details.1 ht),
        TargetSet.pairwise_ofList _⟩
    refine ⟨⟨_, met, _, hmeets, hpartitions⟩, h.hand ?_ ?_ ?_ (hnext ▸ hlineage) ?_ rfl⟩
    · rw [List.map_map, List.length_map]
      exact hids
    · rw [List.length_map]
      exact hnextGroup
    · intro g hg
      obtain ⟨field, hfield, rfl⟩ := List.mem_map.1 hg
      exact ⟨hsubset field hfield, (hfields field hfield).2⟩
    · intro g hg t ht
      rcases List.mem_append.1 hg with hg | hg
      · obtain ⟨field, hfield, rfl⟩ := List.mem_map.1 hg
        exact (hfields field hfield).1 t ht
      · exact (hgroups g hg t ht).mono (List.prefix_append _ _)

/-- What is collected for an operation. -/
theorem Keeping.fields (h : Keeping c collector groups) {selections : List Selection}
    {outcome : Except CollectionError CollectedFields}
    (hrun : collector.collectFields c objectType selections = (outcome, collector')) :
    (∀ collected, outcome = .ok collected → c.Sorts objectType (Target.initial.over selections) .initial collected) ∧
      Keeping c collector' (groupsOf outcome ++ groups) := by
  have hgives := collector.collectFields_gives c objectType selections
  rw [hrun] at hgives
  cases outcome with
  | error e => exact ⟨fun _ heq => absurd heq (by simp), h.skip hgives.nextUsage hgives.nextGroup hgives.collected⟩
  | ok collected =>
    obtain ⟨issued, hissued, hgroups⟩ := h.lineage
    have hinitial : Reaches [.initial] issued .initial := .inl (List.mem_singleton_self _)
    have hok : (collector.collectFields c objectType selections).1 ≠ .error .endlessFragments := by
      rw [hrun]
      exact nofun
    obtain ⟨walked, hruns, hfinish⟩ := exists_runs_collectFields hok
    have hwork : ∀ x ∈ Target.initial.over selections, Reaches [.initial] issued x.1 := by
      intro x hx
      obtain ⟨_, -, rfl⟩ := List.mem_map.1 hx
      exact hinitial
    have hparent : ∀ t ∈ TargetSet.initial.targets, Reaches [.initial] issued t := fun t ht => List.mem_singleton.1 ht ▸ hinitial
    obtain ⟨hsorts, hkeeping⟩ :=
      h.finish hissued hgroups hwork hparent (List.pairwise_singleton _ _) hruns (hfinish.symm.trans hrun)
    refine ⟨fun _ heq => ?_, hkeeping⟩
    cases heq
    exact hsorts

/-- What is collected below a group, now or earlier. -/
theorem Keeping.subfields (h : Keeping c collector groups) {group : FieldGroup} (hgroup : group ∈ groups)
    {outcome : Except CollectionError CollectedFields}
    (hrun : collector.collectSubfields c objectType group = (outcome, collector')) :
    (∀ collected, outcome = .ok collected → c.Sorts objectType group.below group.targets collected) ∧
      Keeping c collector' (groupsOf outcome ++ groups) := by
  unfold collectSubfields at hrun
  cases hearlier : collector.earlier? objectType group with
  | some collected =>
    rw [hearlier, Prod.mk.injEq] at hrun
    obtain ⟨rfl, rfl⟩ := hrun
    obtain ⟨entry, hfind, rfl⟩ := Option.map_eq_some_iff.1 hearlier
    have hentry : entry.1 = (objectType, group.id) := by simpa using List.find?_some hfind
    obtain ⟨g, hg, hid, hsorts, hsubset⟩ := h.memory entry (List.mem_of_find?_eq_some hfind)
    rw [hentry] at hid hsorts
    obtain rfl := h.unique g hg group hgroup hid
    refine ⟨fun _ heq => ?_, h.again hsubset⟩
    cases heq
    exact hsorts
  | none =>
    rw [hearlier] at hrun
    dsimp only at hrun
    have hgives := collector.collectBelow_gives c objectType group
    rcases hbelow : collector.collectBelow c objectType group with ⟨result, collector₁⟩
    rw [hbelow] at hgives hrun
    cases result with
    | error e =>
      obtain ⟨rfl, rfl⟩ := Prod.mk.injEq .. ▸ hrun
      exact ⟨fun _ heq => absurd heq (by simp), h.skip hgives.nextUsage hgives.nextGroup hgives.collected⟩
    | ok collected =>
      obtain ⟨rfl, rfl⟩ := Prod.mk.injEq .. ▸ hrun
      obtain ⟨issued, hissued, hgroups⟩ := h.lineage
      have hok : (collector.collectBelow c objectType group).1 ≠ .error .endlessFragments := by
        rw [hbelow]
        exact nofun
      obtain ⟨walked, hruns, hfinish⟩ := exists_runs_collectBelow hok
      obtain ⟨hsubset, hordered⟩ := h.targets group hgroup
      have hwork : ∀ x ∈ group.below, Reaches [.initial] issued x.1 := by
        intro x hx
        obtain ⟨d, hd, hx⟩ := List.mem_flatMap.1 hx
        obtain ⟨_, -, rfl⟩ := List.mem_map.1 hx
        exact hgroups group hgroup _ (List.mem_map_of_mem hd)
      have hparent : ∀ t ∈ group.targets.targets, Reaches [.initial] issued t :=
        fun t ht => hgroups group hgroup t (hsubset ht)
      obtain ⟨hsorts, hkeeping⟩ := h.finish hissued hgroups hwork hparent hordered hruns (hfinish.symm.trans hbelow)
      refine ⟨fun _ heq => ?_, hkeeping.remember (List.mem_append_right _ hgroup) hsorts (List.subset_append_left _ _)⟩
      cases heq
      exact hsorts

theorem Produces.keeping (h : Produces c collector groups) : Keeping c collector groups := by
  induction h with
  | start => exact .start
  | fields _ hrun ih => exact (ih.fields hrun).2
  | subfields _ hgroup hrun ih => exact (ih.subfields hgroup hrun).2
  | initially _ _ ih => exact ih.initially _

/-- What a collector collects for an operation, or below a group that it handed out, is a partition of what is met there. -/
theorem Produces.sorts (h : Produces c collector groups) (objectType : String) :
    (∀ selections collected, (collector.collectFields c objectType selections).1 = .ok collected →
      c.Sorts objectType (Target.initial.over selections) .initial collected) ∧
    ∀ group ∈ groups, ∀ collected, (collector.collectSubfields c objectType group).1 = .ok collected →
      c.Sorts objectType group.below group.targets collected :=
  ⟨fun _ collected hok => (h.keeping.fields rfl).1 collected hok,
    fun _ hgroup collected hok => (h.keeping.subfields hgroup rfl).1 collected hok⟩

/-! ### A field that is met in several targets -/

/-- A field inside and outside of a deferred fragment, with another deferred fragment below it. -/
def sharedField : List Selection :=
  [.named "a" [.named "b", .deferred [.named "b", .named "c"]],
    .deferred [.named "a" [.named "c"], .named "b", .deferred [.named "d"]]]

/-- The field is in the initial result, and of the fields below it, one that both deferred fragments have is in both. -/
theorem sorts_sharedField : ∃ collected group below collector,
    ({} : Collector).collectFields .withF "Query" sharedField = (.ok collected, collector) ∧
      CollectionContext.withF.Sorts "Query" (Target.initial.over sharedField) .initial collected ∧
      ("a", group) ∈ collected.fields ∧ (collector.collectSubfields .withF "Query" group).1 = .ok below ∧
      CollectionContext.withF.Sorts "Query" group.below group.targets below ∧
      below.allFields.map (fun field => (field.1, field.2.targets.ids)) = [("b", [0]), ("c", [1, 3])] := by
  have hkeys : (({} : Collector).collectFields .withF "Query" sharedField).1.toOption.bind (fun collected =>
      (collected.fields.find? (·.1 = "a")).bind fun field =>
        ((({} : Collector).collectFields .withF "Query" sharedField).2.collectSubfields .withF "Query" field.2).1.toOption.map
          fun below => below.allFields.map fun field => (field.1, field.2.targets.ids)) =
      some [("b", [0]), ("c", [1, 3])] := by
    decide +kernel
  rcases hrun : ({} : Collector).collectFields .withF "Query" sharedField with ⟨_ | collected, collector⟩
  · rw [hrun] at hkeys
    cases hkeys
  · rw [hrun] at hkeys
    obtain ⟨_, ⟨⟩, hfield⟩ := Option.bind_eq_some_iff.1 hkeys
    obtain ⟨⟨key, group⟩, hfind, hbelow⟩ := Option.bind_eq_some_iff.1 hfield
    obtain rfl : key = "a" := by simpa using List.find?_some hfind
    have hfield : ("a", group) ∈ collected.fields := List.mem_of_find?_eq_some hfind
    have hgroup : group ∈ groupsOf (.ok collected) ++ [] :=
      List.mem_append_left _ (List.mem_map_of_mem (List.mem_append_left _ hfield))
    rcases hok : (collector.collectSubfields .withF "Query" group).1 with _ | below
    · rw [hok] at hbelow
      cases hbelow
    · rw [hok] at hbelow
      exact ⟨collected, group, below, collector, rfl,
        (Produces.start.sorts "Query").1 sharedField collected (congrArg Prod.fst hrun), hfield, hok,
        ((Produces.start.fields hrun).sorts "Query").2 group hgroup below hok, Option.some.inj hbelow⟩

end Collector

end GraphQL
