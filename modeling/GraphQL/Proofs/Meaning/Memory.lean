import GraphQL.Proofs.Meaning.Ledger

/-!
# What execution remembers is right

What was collected below a group, and how its list is streamed, is remembered under the number of the group.  A ledger
explains a memory (`Ledger.Explains`) if that is what the rules give for the group that the ledger has under the number.
Collecting below a group and looking for a stream leave a memory that a continued ledger explains.
-/

namespace GraphQL

open Execution

namespace Ledger

/-- What is collected below a group for an object type, with the groups of it in the ledger. -/
structure Collected (c : ExecutionContext) (l : Ledger) (m : Memory) (typeName : String) (group : FieldGroup)
    (collected : CollectedFields) : Prop where
  collects : c.Collects typeName group (.ok collected)
  fits : ∃ first, 0 < first ∧ (∀ v, .deferred v ∈ group.reached → v.id < first) ∧
    collected.Fits first group.reached group.targets
  knows : ∀ field ∈ collected.allFields, l.Knows m field.2

/-- How the list of a group is streamed, with the group for its items in the ledger. -/
structure Streamed (c : ExecutionContext) (l : Ledger) (m : Memory) (group : FieldGroup)
    (usage : Option StreamUsage) : Prop where
  streams : ∃ nextGroup, newStreamUsage c group nextGroup = .ok usage
  knows : ∀ u, usage = some u → l.Knows m u.group

/-- What is remembered holds of the groups in the ledger. -/
structure Explains (c : ExecutionContext) (l : Ledger) (m : Memory) : Prop where
  positive : 0 < m.collector.nextUsage
  collected : ∀ typeName id collected, ((typeName, id), collected) ∈ m.collector.collected →
    id < m.collector.nextGroup ∧ l.Collected c m typeName (l.groups id) collected
  streamed : ∀ id usage, (id, usage) ∈ m.streamUsages → id < m.collector.nextGroup ∧ l.Streamed c m (l.groups id) usage

/-- The ledger is continued while groups are numbered. -/
structure Continues (l : Ledger) (m : Memory) (l' : Ledger) (m' : Memory) : Prop where
  groups : ∀ id < m.collector.nextGroup, l'.groups id = l.groups id
  lists : l'.lists = l.lists
  sets : l'.sets = l.sets
  nextGroup : m.collector.nextGroup ≤ m'.collector.nextGroup
  nextUsage : m.collector.nextUsage ≤ m'.collector.nextUsage

variable {c : ExecutionContext} {l l' : Ledger} {m m' : Memory} {group : FieldGroup}

namespace Continues

theorem refl (l : Ledger) (m : Memory) : l.Continues m l m := ⟨fun _ _ => rfl, rfl, rfl, Nat.le_refl _, Nat.le_refl _⟩

theorem knows (h : l.Continues m l' m') (hk : l.Knows m group) : l'.Knows m' group where
  lt := Nat.lt_of_lt_of_le hk.lt h.nextGroup
  eq := (h.groups _ hk.lt).trans hk.eq
  precedes := ⟨Nat.lt_of_lt_of_le hk.precedes.1 h.nextUsage,
    fun usage hu => Nat.lt_of_lt_of_le (hk.precedes.2 usage hu) h.nextUsage⟩

theorem collected (h : l.Continues m l' m') {typeName : String} {collected : CollectedFields}
    (hc : l.Collected c m typeName group collected) : l'.Collected c m' typeName group collected :=
  ⟨hc.collects, hc.fits, fun field hfield => h.knows (hc.knows field hfield)⟩

theorem streamed (h : l.Continues m l' m') {usage : Option StreamUsage} (hs : l.Streamed c m group usage) :
    l'.Streamed c m' group usage :=
  ⟨hs.streams, fun u hu => h.knows (hs.knows u hu)⟩

/-- What is remembered and not new stays explained. -/
theorem explains (h : l.Continues m l' m') (he : l.Explains c m)
    (hcollected : ∀ e ∈ m'.collector.collected, e ∈ m.collector.collected ∨ e.1.2 < m'.collector.nextGroup ∧
      l'.Collected c m' e.1.1 (l'.groups e.1.2) e.2)
    (hstreamed : ∀ e ∈ m'.streamUsages, e ∈ m.streamUsages ∨ e.1 < m'.collector.nextGroup ∧
      l'.Streamed c m' (l'.groups e.1) e.2) : l'.Explains c m' := by
  refine ⟨Nat.lt_of_lt_of_le he.positive h.nextUsage, fun typeName id collected hmem => ?_, fun id usage hmem => ?_⟩
  · rcases hcollected _ hmem with hmem | hnew
    · obtain ⟨hlt, hc⟩ := he.collected typeName id collected hmem
      exact ⟨Nat.lt_of_lt_of_le hlt h.nextGroup, by rw [h.groups id hlt]; exact h.collected hc⟩
    · exact hnew
  · rcases hstreamed _ hmem with hmem | hnew
    · obtain ⟨hlt, hs⟩ := he.streamed id usage hmem
      exact ⟨Nat.lt_of_lt_of_le hlt h.nextGroup, by rw [h.groups id hlt]; exact h.streamed hs⟩
    · exact hnew

/-- The ledger is continued for a stage of which only the memory changes. -/
theorem later {s s' : ExecStage} (h : l.Continues s.memory l' s'.memory) (hp : s'.publisher = s.publisher) :
    l.Later s l' s' :=
  ⟨⟨⟨fun _ _ => by rw [h.lists], fun _ _ => by rw [h.sets], by rw [hp]; exact Publisher.Grows.refl _⟩, h.groups,
    h.nextGroup, h.nextUsage, fun hl => by rw [hp]; exact hl⟩, by rw [hp], fun _ => by rw [hp]; exact List.Subset.refl _⟩

end Continues

/-! ### New groups -/

/-- The ledger with new groups under the numbers from `next` on. -/
def enter (l : Ledger) (next : Nat) (fields : GroupedFieldSet) : Ledger :=
  { l with groups := fun id => if id < next then l.groups id else (fields[id - next]?.map (·.2)).getD default }

/-- A new group stands under its number. -/
theorem groups_enter {next : Nat} {fields : GroupedFieldSet}
    (hids : fields.map (·.2.id) = List.range' next fields.length) {field : String × FieldGroup} (hfield : field ∈ fields) :
    field.2.id < next + fields.length ∧ (l.enter next fields).groups field.2.id = field.2 := by
  obtain ⟨i, hi⟩ := List.mem_iff_getElem?.1 hfield
  have hlt := (List.getElem?_eq_some_iff.1 hi).1
  have hid : field.2.id = next + i := by
    have hget := congrArg (·[i]?) hids
    simp only [List.getElem?_map, hi, Option.map_some, List.getElem?_range' hlt] at hget
    have := Option.some.inj hget
    omega
  refine ⟨by omega, ?_⟩
  show (if field.2.id < next then _ else _) = _
  rw [if_neg (by omega), hid, Nat.add_sub_cancel_left, hi]
  rfl

/-- What a collection gives is entered. -/
theorem Explains.gives {collector collector' : Collector} {reached : List Target} {parent : TargetSet}
    {outcome : Except CollectionError CollectedFields} (h : collector.Gives reached parent outcome collector')
    (he : l.Explains c m) (hm : m.collector = collector) (hreached : ∀ v, .deferred v ∈ reached → v.id < collector.nextUsage) :
    ∃ l', l.Continues m l' { m with collector := collector' } ∧ l'.Explains c { m with collector := collector' } ∧
      ∀ collected, outcome = .ok collected → collected.Fits collector.nextUsage reached parent ∧
        ∀ field ∈ collected.allFields, l'.Knows { m with collector := collector' } field.2 := by
  subst hm
  have hold : ∀ l' : Ledger, l.Continues m l' { m with collector := collector' } →
      l'.Explains c { m with collector := collector' } := by
    intro l' hcontinues
    refine hcontinues.explains he (fun e hmem => Or.inl ?_) fun e hmem => Or.inl hmem
    rw [← h.collected]
    exact hmem
  cases outcome with
  | error e =>
    have hcontinues : l.Continues m l { m with collector := collector' } :=
      ⟨fun _ _ => rfl, rfl, rfl, h.nextGroup, h.nextUsage⟩
    exact ⟨l, hcontinues, hold l hcontinues, fun _ heq => absurd heq (by simp)⟩
  | ok collected =>
    obtain ⟨hids, hnext⟩ := h.ids collected rfl
    have hfits := h.fits collected rfl
    have hcontinues : l.Continues m (l.enter m.collector.nextGroup collected.allFields)
        { m with collector := collector' } :=
      ⟨fun id hid => if_pos hid, rfl, rfl, h.nextGroup, h.nextUsage⟩
    refine ⟨_, hcontinues, hold _ hcontinues, fun collected' heq => ?_⟩
    cases heq
    refine ⟨hfits, fun field hfield => ?_⟩
    obtain ⟨hlt, heq⟩ := groups_enter (l := l) hids hfield
    refine ⟨by rw [hnext]; exact hlt, heq, Nat.lt_of_lt_of_le he.positive h.nextUsage, fun v hv => ?_⟩
    show v.id < collector'.nextUsage
    rw [h.usages collected rfl]
    rcases hfits.reaches field hfield _ hv with hv | ⟨u, hu, heq⟩
    · exact Nat.lt_of_lt_of_le (hreached v hv) (Nat.le_add_right _ _)
    · cases heq
      obtain ⟨i, hi⟩ := List.mem_iff_getElem?.1 hu
      rw [hfits.usages.numbered i _ hi]
      exact Nat.add_lt_add_left (List.getElem?_eq_some_iff.1 hi).1 _

/-! ### Steps -/

/-- Collecting below a group. -/
theorem Explains.collectSubfields (he : l.Explains c m) (hk : l.Knows m group) (typeName : String) :
    ∃ l', l.Continues m l' { m with collector := (m.collector.collectSubfields c.collection typeName group).2 } ∧
      l'.Explains c { m with collector := (m.collector.collectSubfields c.collection typeName group).2 } ∧
      match (m.collector.collectSubfields c.collection typeName group).1 with
      | .error e => c.Collects typeName group (.error e)
      | .ok collected => l'.Collected c
          { m with collector := (m.collector.collectSubfields c.collection typeName group).2 } typeName group collected := by
  unfold Collector.collectSubfields
  split
  · rename_i collected hearlier
    obtain ⟨e, he', rfl⟩ := Option.map_eq_some_iff.1 hearlier
    have hmem := List.mem_of_find?_eq_some he'
    have hkey : e.1 = (typeName, group.id) := by simpa using List.find?_some he'
    obtain ⟨⟨typeName', id⟩, collected⟩ := e
    cases hkey
    obtain ⟨-, hcollected⟩ := he.collected typeName group.id collected hmem
    rw [hk.eq] at hcollected
    exact ⟨l, Continues.refl l m, he, hcollected⟩
  · have hgives := Collector.collectBelow_gives m.collector c.collection typeName group
    have hcollects : c.Collects typeName group (m.collector.collectBelow c.collection typeName group).1 :=
      ⟨m.collector, hk.precedes, rfl⟩
    rcases hbelow : m.collector.collectBelow c.collection typeName group with ⟨outcome, collector'⟩
    rw [hbelow] at hgives hcollects
    obtain ⟨l', hcontinues, hexplains, hnew⟩ := Explains.gives hgives he rfl hk.precedes.2
    cases outcome with
    | error e => exact ⟨l', hcontinues, hexplains, hcollects⟩
    | ok collected =>
      obtain ⟨hfits, hknows⟩ := hnew collected rfl
      have hcollected : ∀ m' : Memory, m'.collector.nextGroup = collector'.nextGroup →
          m'.collector.nextUsage = collector'.nextUsage → l'.Collected c m' typeName group collected := by
        intro m' hgroup husage
        refine ⟨hcollects, ⟨_, hk.precedes.1, hk.precedes.2, hfits⟩, fun field hfield => ?_⟩
        obtain ⟨hlt, heq, hprecedes⟩ := hknows field hfield
        exact ⟨by rw [hgroup]; exact hlt, heq, by unfold FieldGroup.Precedes; rw [husage]; exact hprecedes⟩
      have hremember : l'.Continues { m with collector := collector' } l'
          { m with collector := { collector' with
            collected := ((typeName, group.id), collected) :: collector'.collected } } :=
        ⟨fun _ _ => rfl, rfl, rfl, Nat.le_refl _, Nat.le_refl _⟩
      refine ⟨l', ⟨hcontinues.groups, hcontinues.lists, hcontinues.sets, hcontinues.nextGroup, hcontinues.nextUsage⟩,
        hremember.explains hexplains (fun e hmem => ?_) fun e hmem => Or.inl hmem, hcollected _ rfl rfl⟩
      rcases List.mem_cons.1 hmem with rfl | hmem
      · refine Or.inr ⟨Nat.lt_of_lt_of_le hk.lt hcontinues.nextGroup, ?_⟩
        rw [show l'.groups group.id = group from (hcontinues.groups _ hk.lt).trans hk.eq]
        exact hcollected _ rfl rfl
      · exact Or.inl hmem

/-- Collecting the fields of the operation. -/
theorem Explains.collectFields (he : l.Explains c m) :
    ∃ l', l.Continues m l' { m with
        collector := (m.collector.collectFields c.collection c.rootType c.operation.selectionSet.selections).2 } ∧
      l'.Explains c { m with
        collector := (m.collector.collectFields c.collection c.rootType c.operation.selectionSet.selections).2 } ∧
      ∀ collected, (m.collector.collectFields c.collection c.rootType c.operation.selectionSet.selections).1 =
          .ok collected → collected.Fits m.collector.nextUsage [.initial] .initial ∧
        ∀ field ∈ collected.allFields, l'.Knows { m with
          collector := (m.collector.collectFields c.collection c.rootType c.operation.selectionSet.selections).2 }
            field.2 :=
  Explains.gives (Collector.collectFields_gives m.collector c.collection c.rootType c.operation.selectionSet.selections) he rfl
    (by simp)

/-- A list is looked at for the first time. -/
theorem Explains.newStreamUsage (he : l.Explains c m) (hk : l.Knows m group) {usage : Option StreamUsage}
    (h : Execution.newStreamUsage c group m.collector.nextGroup = .ok usage) {collector : Collector}
    (hcollector : collector = if usage.isSome then { m.collector with nextGroup := m.collector.nextGroup + 1 }
      else m.collector) :
    ∃ l', l.Continues m l' ⟨collector, (group.id, usage) :: m.streamUsages⟩ ∧
      l'.Explains c ⟨collector, (group.id, usage) :: m.streamUsages⟩ ∧
      l'.Streamed c ⟨collector, (group.id, usage) :: m.streamUsages⟩ group usage := by
  have hnext : m.collector.nextGroup ≤ collector.nextGroup ∧ collector.nextUsage = m.collector.nextUsage ∧
      collector.collected = m.collector.collected ∧ ∀ u, usage = some u → collector.nextGroup = m.collector.nextGroup + 1 := by
    subst hcollector
    cases usage with
    | none => exact ⟨Nat.le_refl _, rfl, rfl, by simp⟩
    | some u => exact ⟨Nat.le_succ _, rfl, rfl, fun _ _ => rfl⟩
  obtain ⟨hle, husage, hcollected, hsucc⟩ := hnext
  let l' : Ledger := { l with
    groups := fun id => if id < m.collector.nextGroup then l.groups id else (usage.map (·.group)).getD default }
  have hcontinues : l.Continues m l' ⟨collector, (group.id, usage) :: m.streamUsages⟩ :=
    ⟨fun id hid => if_pos hid, rfl, rfl, hle, Nat.le_of_eq husage.symm⟩
  have hstreamed : l'.Streamed c ⟨collector, (group.id, usage) :: m.streamUsages⟩ group usage := by
    refine ⟨⟨_, h⟩, fun u hu => ?_⟩
    subst hu
    obtain ⟨hreached, -, hid⟩ := reached_newStreamUsage h
    refine ⟨?_, ?_, ?_, fun v hv => absurd (hreached _ hv) (by simp)⟩
    · show u.group.id < collector.nextGroup
      rw [hsucc u rfl, hid]
      exact Nat.lt_succ_self _
    · show (if u.group.id < _ then _ else _) = _
      rw [hid, if_neg (Nat.lt_irrefl _)]
      rfl
    · show 0 < collector.nextUsage
      rw [husage]
      exact he.positive
  refine ⟨l', hcontinues, hcontinues.explains he (fun e hmem => Or.inl ?_) fun e hmem => ?_, hstreamed⟩
  · rw [← hcollected]
    exact hmem
  · rcases List.mem_cons.1 hmem with rfl | hmem
    · refine Or.inr ⟨Nat.lt_of_lt_of_le hk.lt hle, ?_⟩
      rw [show l'.groups group.id = group from (hcontinues.groups _ hk.lt).trans hk.eq]
      exact hstreamed
    · exact Or.inl hmem

end Ledger

end GraphQL
