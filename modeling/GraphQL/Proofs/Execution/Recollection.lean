import GraphQL.Proofs.Collection.Correspondence
import GraphQL.Proofs.Collection.Produced
import GraphQL.Proofs.Meaning.Settles

/-!
# What an execution recalls

A memory with the groups that have been numbered is a `Recollection`: no two groups share a number, and whatever is
remembered under the number of a group is what the rules give for that group.  Collecting below a group that has a number,
and looking how its list is streamed, lead to a later one; so does forgetting everything.
-/

namespace GraphQL

open Execution

/-- The groups that came with what is remembered: those that were collected, and those for items of streamed lists. -/
def Memory.groups (m : Memory) : List FieldGroup :=
  m.collector.collected.flatMap (fun e => e.2.allFields.map Prod.snd) ++
    m.streamUsages.filterMap fun e => e.2.map StreamUsage.group

/-- Only the numbers that are free are remembered. -/
def Memory.forget (m : Memory) : Memory := ⟨{ m.collector with collected := [] }, []⟩

/-- What is remembered, and the groups that have been numbered. -/
structure Recollection (c : ExecutionContext) where
  groups : List FieldGroup
  memory : Memory
  positive : 0 < memory.collector.nextUsage
  nodup : (groups.map FieldGroup.id).Nodup
  numbered : ∀ g ∈ groups, g.id < memory.collector.nextGroup
  placed : ∀ g ∈ groups, g.Placed ∧ g.Precedes memory.collector
  collected : ∀ e ∈ memory.collector.collected, ∃ g ∈ groups, g.id = e.1.2 ∧ c.Collects e.1.1 g (.ok e.2) ∧
    e.2.allFields.map Prod.snd ⊆ groups
  streamed : ∀ e ∈ memory.streamUsages, ∃ g ∈ groups, g.id = e.1 ∧ (∃ n, newStreamUsage c g n = .ok e.2) ∧
    ∀ u, e.2 = some u → u.group ∈ groups

namespace Recollection

variable {c : ExecutionContext} {r r' r'' : Recollection c} {g : FieldGroup} {P : Prop}

/-- Groups were numbered since.  If nothing is forgotten, they are remembered. -/
def Later (keeps : Prop) (r r' : Recollection c) : Prop :=
  ∃ more, r'.groups = r.groups ++ more ∧ (keeps → r'.memory.groups.Perm (more ++ r.memory.groups))

namespace Later

theorem refl (r : Recollection c) : r.Later P r := ⟨[], (List.append_nil _).symm, fun _ => .refl _⟩

theorem trans (h : r.Later P r') (h' : r'.Later P r'') : r.Later P r'' := by
  obtain ⟨more, hgroups, hkept⟩ := h
  obtain ⟨more', hgroups', hkept'⟩ := h'
  refine ⟨more ++ more', by rw [hgroups', hgroups, List.append_assoc], fun hp => (hkept' hp).trans ?_⟩
  rw [List.append_assoc]
  exact ((hkept hp).append_left more').trans (List.perm_append_comm_assoc _ _ _)

theorem subset (h : r.Later P r') : r.groups ⊆ r'.groups := by
  obtain ⟨more, hgroups, -⟩ := h
  rw [hgroups]
  exact List.subset_append_left _ _

end Later

/-- Nothing is remembered, and no group is numbered. -/
def start (c : ExecutionContext) : Recollection c where
  groups := []
  memory := {}
  positive := Nat.one_pos
  nodup := List.nodup_nil
  numbered := fun _ h => absurd h List.not_mem_nil
  placed := fun _ h => absurd h List.not_mem_nil
  collected := fun _ h => absurd h List.not_mem_nil
  streamed := fun _ h => absurd h List.not_mem_nil

/-- Everything is forgotten but the groups that have been numbered. -/
def forget (r : Recollection c) : Recollection c where
  groups := r.groups
  memory := r.memory.forget
  positive := r.positive
  nodup := r.nodup
  numbered := r.numbered
  placed := r.placed
  collected := fun _ h => absurd h List.not_mem_nil
  streamed := fun _ h => absurd h List.not_mem_nil

theorem later_forget (r : Recollection c) : r.Later False r.forget := ⟨[], (List.append_nil _).symm, False.elim⟩

/-- Groups are known by their numbers. -/
theorem eq_of_id (r : Recollection c) {g' : FieldGroup} (hg : g ∈ r.groups) (hg' : g' ∈ r.groups) (hid : g.id = g'.id) :
    g = g' :=
  List.inj_on_of_nodup_map r.nodup hg hg' hid

/-- More groups are numbered, and more is remembered. -/
theorem exists_later (r : Recollection c) (more : List FieldGroup) (m : Memory)
    (hids : more.map FieldGroup.id = List.range' r.memory.collector.nextGroup more.length)
    (hgroup : r.memory.collector.nextGroup + more.length ≤ m.collector.nextGroup)
    (husage : r.memory.collector.nextUsage ≤ m.collector.nextUsage)
    (hmore : ∀ g ∈ more, g.Placed ∧ g.Precedes m.collector)
    (hcollected : ∀ e ∈ m.collector.collected, e ∈ r.memory.collector.collected ∨ ∃ g ∈ r.groups, g.id = e.1.2 ∧
      c.Collects e.1.1 g (.ok e.2) ∧ e.2.allFields.map Prod.snd ⊆ r.groups ++ more)
    (hstreamed : ∀ e ∈ m.streamUsages, e ∈ r.memory.streamUsages ∨ ∃ g ∈ r.groups, g.id = e.1 ∧
      (∃ n, newStreamUsage c g n = .ok e.2) ∧ ∀ u, e.2 = some u → u.group ∈ r.groups ++ more)
    (hkept : P → m.groups.Perm (more ++ r.memory.groups)) :
    ∃ r' : Recollection c, r.Later P r' ∧ r'.memory = m ∧ r'.groups = r.groups ++ more := by
  have hold : ∀ g ∈ r.groups, g ∈ r.groups ++ more := fun g hg => List.mem_append_left more hg
  have hnew : ∀ g ∈ more, r.memory.collector.nextGroup ≤ g.id ∧ g.id < m.collector.nextGroup := by
    intro g hg
    have hmem : g.id ∈ more.map FieldGroup.id := List.mem_map_of_mem hg
    rw [hids, List.mem_range'_1] at hmem
    exact ⟨hmem.1, Nat.lt_of_lt_of_le hmem.2 hgroup⟩
  refine ⟨⟨r.groups ++ more, m, Nat.lt_of_lt_of_le r.positive husage, ?_, fun g hg => ?_, fun g hg => ?_, fun e he => ?_,
    fun e he => ?_⟩, ⟨more, rfl, hkept⟩, rfl, rfl⟩
  · rw [List.map_append, List.nodup_append]
    refine ⟨r.nodup, hids ▸ List.nodup_range', fun id hid id' hid' => ?_⟩
    obtain ⟨g, hg, rfl⟩ := List.mem_map.1 hid
    obtain ⟨g', hg', rfl⟩ := List.mem_map.1 hid'
    exact Nat.ne_of_lt (Nat.lt_of_lt_of_le (r.numbered g hg) (hnew g' hg').1)
  · rcases List.mem_append.1 hg with hg | hg
    · exact Nat.lt_of_lt_of_le (r.numbered g hg) (Nat.le_trans (Nat.le_add_right _ _) hgroup)
    · exact (hnew g hg).2
  · rcases List.mem_append.1 hg with hg | hg
    · obtain ⟨hplaced, hpositive, hprecedes⟩ := r.placed g hg
      exact ⟨hplaced, Nat.lt_of_lt_of_le hpositive husage, fun u hu => Nat.lt_of_lt_of_le (hprecedes u hu) husage⟩
    · exact hmore g hg
  · rcases hcollected e he with he | ⟨g, hg, hrest⟩
    · obtain ⟨g, hg, hid, hcollects, hsubset⟩ := r.collected e he
      exact ⟨g, hold g hg, hid, hcollects, fun g hg => hold g (hsubset hg)⟩
    · exact ⟨g, hold g hg, hrest⟩
  · rcases hstreamed e he with he | ⟨g, hg, hrest⟩
    · obtain ⟨g, hg, hid, hstreams, hgroup⟩ := r.streamed e he
      exact ⟨g, hold g hg, hid, hstreams, fun u hu => hold _ (hgroup u hu)⟩
    · exact ⟨g, hold g hg, hrest⟩

/-! ### Collections -/

/-- The numbers of the groups that a collection hands out, and the uses of `@defer` that these know. -/
theorem handed {collector collector' : Collector} {reached : List Target} {parent : TargetSet} {collected : CollectedFields}
    (h : collector.Gives reached parent (.ok collected) collector') (hpositive : 0 < collector.nextUsage)
    (hreached : ∀ v, .deferred v ∈ reached → v.id < collector.nextUsage) :
    (collected.allFields.map Prod.snd).map FieldGroup.id =
        List.range' collector.nextGroup (collected.allFields.map Prod.snd).length ∧
      collector.nextGroup + (collected.allFields.map Prod.snd).length ≤ collector'.nextGroup ∧
      ∀ g ∈ collected.allFields.map Prod.snd, g.Precedes collector' := by
  obtain ⟨hids, hnext⟩ := h.ids collected rfl
  have hfits := h.fits collected rfl
  rw [List.map_map, List.length_map]
  refine ⟨hids, Nat.le_of_eq hnext.symm, fun g hg => ⟨Nat.lt_of_lt_of_le hpositive h.nextUsage, fun v hv => ?_⟩⟩
  obtain ⟨field, hfield, rfl⟩ := List.mem_map.1 hg
  rw [h.usages collected rfl]
  rcases hfits.reaches field hfield _ hv with hv | ⟨u, hu, heq⟩
  · exact Nat.lt_of_lt_of_le (hreached v hv) (Nat.le_add_right _ _)
  · cases heq
    obtain ⟨i, hi⟩ := List.mem_iff_getElem?.1 hu
    rw [hfits.usages.numbered i _ hi]
    exact Nat.add_lt_add_left (List.getElem?_eq_some_iff.1 hi).1 _

/-- What is collected below a group that has a number, now or earlier. -/
theorem collectSubfields (r : Recollection c) (hg : g ∈ r.groups) (typeName : String) :
    ∃ r' : Recollection c, r.Later P r' ∧
      r'.memory = { r.memory with collector := (r.memory.collector.collectSubfields c.collection typeName g).2 } ∧
      c.Collects typeName g (r.memory.collector.collectSubfields c.collection typeName g).1 ∧
      ∀ collected, (r.memory.collector.collectSubfields c.collection typeName g).1 = .ok collected →
        collected.allFields.map Prod.snd ⊆ r'.groups := by
  unfold Collector.collectSubfields
  split
  · rename_i collected hearlier
    obtain ⟨e, hfind, rfl⟩ := Option.map_eq_some_iff.1 hearlier
    have hkey : e.1 = (typeName, g.id) := by simpa using List.find?_some hfind
    obtain ⟨g', hg', hid, hcollects, hsubset⟩ := r.collected e (List.mem_of_find?_eq_some hfind)
    rw [hkey] at hid hcollects
    obtain rfl := r.eq_of_id hg' hg hid
    refine ⟨r, .refl r, rfl, hcollects, fun collected heq => ?_⟩
    cases heq
    exact hsubset
  · obtain ⟨hplaced, hprecedes⟩ := r.placed g hg
    have hgives := Collector.collectBelow_gives r.memory.collector c.collection typeName g
    have hcollects : c.Collects typeName g (r.memory.collector.collectBelow c.collection typeName g).1 :=
      ⟨_, hprecedes, rfl⟩
    have hnew := fun collected => @Collector.placed_collectBelow c.collection _ _ typeName collected hplaced hprecedes
    rcases hbelow : r.memory.collector.collectBelow c.collection typeName g with ⟨outcome, collector⟩
    rw [hbelow] at hgives hcollects hnew
    cases outcome with
    | error e =>
      obtain ⟨r', hlater, hmemory, -⟩ := r.exists_later (P := P) [] { r.memory with collector := collector }
        rfl hgives.nextGroup hgives.nextUsage (fun _ h => absurd h List.not_mem_nil)
        (fun e he => .inl (hgives.collected ▸ he)) (fun e he => .inl he)
        (fun _ => by unfold Memory.groups; rw [hgives.collected]; exact .refl _)
      exact ⟨r', hlater, hmemory, hcollects, fun _ heq => absurd heq (by simp)⟩
    | ok collected =>
      obtain ⟨hids, hgroup, hknown⟩ := handed hgives r.positive hprecedes.2
      let m : Memory := { r.memory with
        collector := { collector with collected := ((typeName, g.id), collected) :: collector.collected } }
      have hmore : ∀ g' ∈ collected.allFields.map Prod.snd, g'.Placed ∧ g'.Precedes m.collector := by
        intro g' hg'
        obtain ⟨field, hfield, rfl⟩ := List.mem_map.1 hg'
        exact ⟨(hnew collected rfl).1 field hfield, hknown _ hg'⟩
      have hkept : m.groups = collected.allFields.map Prod.snd ++ r.memory.groups := by
        unfold Memory.groups
        dsimp only [m]
        rw [List.flatMap_cons, hgives.collected, List.append_assoc]
      obtain ⟨r', hlater, hmemory, hgroups⟩ := r.exists_later (P := P) _ m hids hgroup hgives.nextUsage hmore
        (fun e he => (List.mem_cons.1 he).elim
          (fun heq => heq ▸ .inr ⟨g, hg, rfl, hcollects, List.subset_append_right _ _⟩)
          fun he => .inl (hgives.collected ▸ he))
        (fun e he => .inl he) fun _ => hkept ▸ .refl _
      refine ⟨r', hlater, hmemory, hcollects, fun _ heq => ?_⟩
      cases heq
      rw [hgroups]
      exact List.subset_append_right _ _

/-- What is collected for the operation. -/
theorem collectFields (c : ExecutionContext) :
    ∃ r : Recollection c,
      r.memory = { collector := (({} : Collector).collectFields c.collection c.rootType c.operation.selectionSet.selections).2 } ∧
      r.groups =
        Collector.groupsOf (({} : Collector).collectFields c.collection c.rootType c.operation.selectionSet.selections).1 := by
  have hgives := Collector.collectFields_gives {} c.collection c.rootType c.operation.selectionSet.selections
  have hnew := fun collected => @Collector.placed_collectFields c.collection {} c.rootType collected
    c.operation.selectionSet.selections Nat.one_pos
  rcases hfields : ({} : Collector).collectFields c.collection c.rootType c.operation.selectionSet.selections with
    ⟨outcome, collector⟩
  rw [hfields] at hgives hnew
  have hnone : ∀ {e}, e ∈ collector.collected → e ∈ ({} : Collector).collected := fun he => hgives.collected ▸ he
  cases outcome with
  | error e =>
    obtain ⟨r, -, hmemory, hgroups⟩ := (start c).exists_later (P := False) [] { collector := collector } rfl
      hgives.nextGroup hgives.nextUsage (fun _ h => absurd h List.not_mem_nil) (fun e he => .inl (hnone he))
      (fun e he => .inl he) False.elim
    exact ⟨r, hmemory, hgroups⟩
  | ok collected =>
    obtain ⟨hids, hgroup, hknown⟩ := handed hgives Nat.one_pos (by simp)
    have hmore : ∀ g ∈ collected.allFields.map Prod.snd, g.Placed ∧ g.Precedes collector := by
      intro g hg
      obtain ⟨field, hfield, rfl⟩ := List.mem_map.1 hg
      exact ⟨(hnew collected rfl).1 field hfield, hknown _ hg⟩
    obtain ⟨r, -, hmemory, hgroups⟩ := (start c).exists_later (P := False) _ { collector := collector } hids hgroup
      hgives.nextUsage hmore (fun e he => .inl (hnone he)) (fun e he => .inl he) False.elim
    exact ⟨r, hmemory, hgroups⟩

/-! ### Streamed lists -/

theorem placed_initially (g : FieldGroup) (id : Nat) : (g.initially id).Placed := by
  have hreached := g.reached_initially id
  refine ⟨⟨fun t ht => ?_, fun t ht => ?_⟩, fun _ => rfl, fun t ht hne => absurd (hreached t ht) hne⟩
  · rw [List.mem_singleton.1 ht]
    exact List.mem_cons_self
  · rw [hreached t ht]
    exact fun a ha => absurd ha List.not_mem_nil

/-- How the list of a group that has a number is streamed is found out and remembered. -/
theorem exists_streamed (r : Recollection c) (hg : g ∈ r.groups) {usage : Option StreamUsage}
    (hnew : newStreamUsage c g r.memory.collector.nextGroup = .ok usage) :
    ∃ r' : Recollection c, r.Later P r' ∧
      r'.memory = ⟨if usage.isSome then { r.memory.collector with nextGroup := r.memory.collector.nextGroup + 1 }
        else r.memory.collector, (g.id, usage) :: r.memory.streamUsages⟩ ∧
      ∀ u, usage = some u → u.group ∈ r'.groups := by
  cases usage with
  | none =>
    obtain ⟨r', hlater, hmemory, -⟩ := r.exists_later (P := P) []
      ⟨r.memory.collector, (g.id, none) :: r.memory.streamUsages⟩ rfl (Nat.le_refl _) (Nat.le_refl _)
      (fun _ h => absurd h List.not_mem_nil) (fun e he => .inl he)
      (fun e he => (List.mem_cons.1 he).elim (fun heq => heq ▸ .inr ⟨g, hg, rfl, ⟨_, hnew⟩, by simp⟩) .inl)
      fun _ => .refl _
    exact ⟨r', hlater, hmemory, by simp⟩
  | some u =>
    have hgroup := FieldGroup.initially_of_newStreamUsage hnew
    have hmore : ∀ g' ∈ [u.group], g'.Placed ∧ g'.Precedes r.memory.collector := by
      intro g' hg'
      rw [List.mem_singleton.1 hg', hgroup]
      exact ⟨placed_initially g _, r.positive, fun v hv => absurd (g.reached_initially _ _ hv) (by simp)⟩
    have hkept : (Memory.groups ⟨{ r.memory.collector with nextGroup := r.memory.collector.nextGroup + 1 },
        (g.id, some u) :: r.memory.streamUsages⟩).Perm ([u.group] ++ r.memory.groups) := by
      unfold Memory.groups
      exact List.perm_middle
    obtain ⟨r', hlater, hmemory, hgroups⟩ := r.exists_later (P := P) [u.group]
      ⟨{ r.memory.collector with nextGroup := r.memory.collector.nextGroup + 1 },
        (g.id, some u) :: r.memory.streamUsages⟩ (by rw [hgroup]; rfl) (Nat.le_refl _) (Nat.le_refl _) hmore
      (fun e he => .inl he)
      (fun e he => (List.mem_cons.1 he).elim (fun heq => heq ▸ .inr ⟨g, hg, rfl, ⟨_, hnew⟩, by simp⟩) .inl)
      fun _ => hkept
    refine ⟨r', hlater, hmemory, fun u' hu' => ?_⟩
    cases hu'
    rw [hgroups]
    exact List.mem_append_right _ (List.mem_singleton_self _)

/-- How the list of a group that has a number is streamed, as it is found now or was earlier. -/
theorem run_streamUsage (r : Recollection c) (hg : g ∈ r.groups) (path : Path) {s : Stage Task Memory}
    (hs : s.memory = r.memory) :
    ∃ (outcome : Except Error (Option StreamUsage)) (r' : Recollection c),
      (streamUsage c g path).run s = some (outcome, { s with memory := r'.memory }) ∧ r.Later P r' ∧
        c.Streams g path outcome ∧ ∀ u, outcome = .ok (some u) → u.group ∈ r'.groups := by
  have hsame : s = { s with memory := r.memory } := by rw [← hs]
  unfold streamUsage
  by_cases hindex : path.endsWithIndex = true
  · rw [if_pos hindex]
    have hrule : c.Streams g path (.ok none) := by
      unfold ExecutionContext.Streams
      rw [if_pos hindex]
    exact ⟨.ok none, r, congrArg (fun s' => some (_, s')) hsame, .refl r, hrule, by simp⟩
  · rw [if_neg hindex]
    have hrule : ∀ {outcome}, (∃ n, newStreamUsage c g n = outcome) → c.Streams g path outcome := by
      intro outcome h
      unfold ExecutionContext.Streams
      rwa [if_neg hindex]
    have hrun : ∀ k : Stage Task Memory → ExecM (Except Error (Option StreamUsage)),
        (MonadState.get >>= k).run s = (k s).run s := fun _ => rfl
    rw [hrun, hs]
    cases hfind : r.memory.streamUsages.find? (·.1 = g.id) with
    | some e =>
      obtain ⟨id, usage⟩ := e
      have hid : id = g.id := by simpa using List.find?_some hfind
      obtain ⟨g', hg', hid', hstreams, hgroup⟩ := r.streamed _ (List.mem_of_find?_eq_some hfind)
      obtain rfl := r.eq_of_id hg' hg (hid'.trans hid)
      exact ⟨.ok usage, r, congrArg (fun s' => some (_, s')) hsame, .refl r, hrule hstreams,
        fun u hu => hgroup u (Except.ok.inj hu)⟩
    | none =>
      cases hnew : newStreamUsage c g r.memory.collector.nextGroup with
      | error e => exact ⟨.error e, r, congrArg (fun s' => some (_, s')) hsame, .refl r, hrule ⟨_, hnew⟩, by simp⟩
      | ok usage =>
        obtain ⟨r', hlater, hmemory, hgroups⟩ := r.exists_streamed (P := P) hg hnew
        refine ⟨.ok usage, r', ?_, hlater, hrule ⟨_, hnew⟩, fun u hu => hgroups u (Except.ok.inj hu)⟩
        rw [hmemory]
        cases usage with
        | none => rfl
        | some u => rfl

end Recollection

/-! ### Two recollections -/

/-- Lists are streamed in the same way, with groups for the same fields. -/
structure StreamUsage.Corresponds (u u' : StreamUsage) : Prop where
  initialCount : u.initialCount = u'.initialCount
  label : u.label = u'.label
  group : u.group.Corresponds (fun t t' => t = .initial ∧ t' = .initial) u'.group

/-- How the lists of groups that correspond are streamed corresponds. -/
theorem ExecutionContext.streams_corresponds {c : ExecutionContext} {R : Target → Target → Prop} {g g' : FieldGroup}
    (h : g.Corresponds R g') {path : Path} {out out' : Except Error (Option StreamUsage)} (hout : c.Streams g path out)
    (hout' : c.Streams g' path out') :
    (∃ e, out = .error e ∧ out' = .error e) ∨
      ∃ usage usage', out = .ok usage ∧ out' = .ok usage' ∧ Option.Rel StreamUsage.Corresponds usage usage' := by
  unfold Streams at hout hout'
  split at hout
  · rw [if_pos ‹_›] at hout'
    exact .inr ⟨none, none, hout, hout', .none⟩
  · rw [if_neg ‹_›] at hout'
    obtain ⟨n, rfl⟩ := hout
    obtain ⟨n', rfl⟩ := hout'
    have hinitially : ∀ n n', (g.initially n).Corresponds (fun t t' => t = .initial ∧ t' = .initial) (g'.initially n') := by
      obtain ⟨-, hfields⟩ := h
      intro n n'
      refine ⟨.cons ⟨rfl, rfl⟩ .nil, ?_⟩
      cases hfields with
      | cons hfirst hothers =>
        exact .cons ⟨hfirst.1, rfl, rfl⟩ (List.rel_map (fun _ _ hd => ⟨hd.1, rfl, rfl⟩) hothers)
    unfold newStreamUsage
    rw [h.first]
    split
    · exact .inr ⟨none, none, rfl, rfl, .none⟩
    · cases streamOf? c.schema g'.first.node.directives c.vars with
      | error e => exact .inl ⟨_, rfl, rfl⟩
      | ok directive =>
        cases directive with
        | none => exact .inr ⟨none, none, rfl, rfl, .none⟩
        | some d =>
          dsimp only
          split
          · exact .inl ⟨_, rfl, rfl⟩
          · split
            · exact .inl ⟨_, rfl, rfl⟩
            · exact .inr ⟨_, _, rfl, rfl, .some ⟨rfl, rfl, hinitially n n'⟩⟩

/-! ### What would be found anew -/

/-- What was collected below a group is what a new collection finds there, whatever numbers are free.  Targets that were
reached before stay as they are; new ones stand for each other. -/
def CollectedFields.IsFoundAnew (c : ExecutionContext) (typeName : String) (g : FieldGroup) (collected : CollectedFields) :
    Prop :=
  ∀ collector : Collector, g.Precedes collector → ∃ afresh R,
    (collector.collectBelow c.collection typeName g).1 = .ok afresh ∧ Target.Matching R ∧ (∀ t ∈ g.reached, R t t) ∧
      collected.Corresponds R afresh

/-- Whatever is remembered under the number of a group is what would be found anew for this group. -/
structure Memory.Suits (m : Memory) (c : ExecutionContext) (g : FieldGroup) : Prop where
  precedes : g.Precedes m.collector
  collected : ∀ e ∈ m.collector.collected, e.1.2 = g.id → e.2.IsFoundAnew c e.1.1 g
  streamed : ∀ e ∈ m.streamUsages, e.1 = g.id →
    ∀ n, ∃ afresh, newStreamUsage c g n = .ok afresh ∧ Option.Rel StreamUsage.Corresponds e.2 afresh

/-- Below a group, a collection with other free numbers finds the same. -/
theorem ExecutionContext.Collects.isFoundAnew {c : ExecutionContext} {typeName : String} {g : FieldGroup}
    {collected : CollectedFields} (h : c.Collects typeName g (.ok collected)) (hg : g.Grounded) :
    collected.IsFoundAnew c typeName g := by
  intro collector hprecedes
  obtain ⟨earlier, hearlier, hrun⟩ := h
  rcases Collector.collectBelow_corresponds .refl hg.corresponds hg hg hearlier hprecedes typeName with
    ⟨e, hfail, -⟩ | ⟨found, afresh, R, hfound, hafresh, hR, hle, hcorresponds⟩
  · exact absurd (hrun.symm.trans hfail) (by simp)
  · obtain rfl := Except.ok.inj (hrun.symm.trans hfound)
    exact ⟨afresh, R, hafresh, hR, fun t ht => hle ⟨⟨rfl, hg.nested t ht⟩, ht, ht⟩, hcorresponds⟩

/-- How the list of a group is streamed does not depend on the number that is free. -/
theorem newStreamUsage_anew {c : ExecutionContext} {g : FieldGroup} {n : Nat} {usage : Option StreamUsage}
    (h : newStreamUsage c g n = .ok usage) (hg : g.Grounded) (n' : Nat) :
    ∃ afresh, newStreamUsage c g n' = .ok afresh ∧ Option.Rel StreamUsage.Corresponds usage afresh := by
  have hstreams : ∀ n, c.Streams g .root (newStreamUsage c g n) := fun n => ⟨n, rfl⟩
  rcases c.streams_corresponds hg.corresponds (hstreams n) (hstreams n') with
    ⟨e, hfail, -⟩ | ⟨found, afresh, hfound, hafresh, hcorresponds⟩
  · exact absurd (h.symm.trans hfail) (by simp)
  · obtain rfl := Except.ok.inj (h.symm.trans hfound)
    exact ⟨afresh, hafresh, hcorresponds⟩

/-- What is recalled for a group that has a number is what would be found anew. -/
theorem Recollection.suits {c : ExecutionContext} (r : Recollection c) {g : FieldGroup} (hg : g ∈ r.groups) :
    r.memory.Suits c g := by
  obtain ⟨hplaced, hprecedes⟩ := r.placed g hg
  refine ⟨hprecedes, fun e he hid => ?_, fun e he hid => ?_⟩
  · obtain ⟨g', hg', hid', hcollects, -⟩ := r.collected e he
    obtain rfl := r.eq_of_id hg' hg (hid'.trans hid)
    exact hcollects.isFoundAnew hplaced.toGrounded
  · obtain ⟨g', hg', hid', ⟨n, hnew⟩, -⟩ := r.streamed e he
    obtain rfl := r.eq_of_id hg' hg (hid'.trans hid)
    exact newStreamUsage_anew hnew hplaced.toGrounded

end GraphQL
