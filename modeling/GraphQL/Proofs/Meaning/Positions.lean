import GraphQL.Proofs.Meaning.Inside
import GraphQL.Proofs.Meaning.Origins
import GraphQL.Proofs.Meaning.Parts
import GraphQL.Proofs.Schema.Built

/-!
# Where values stand

What is asked for stands at a path, and what is asked for inside of it stands below (`Asked.Includes.standsAt`).  In the
value that it comes to, the path from there leads to what the part comes to (`Asked.Holds.standsAt`): an object has each
key once, since each set of collected fields has.
-/

namespace GraphQL

/-! ### What stands where -/

/-- The step to a part. -/
def Shape.segment? : Shape → (position : Nat) → Option PathSegment
  | list, position => some (.index position)
  | object keys, position => keys[position]?.map .key

/-- The child stands at the path, and an error that it has instead of a result is not located yet. -/
def Child.StandsAt (child : Child) (path : Path) : Prop :=
  child.place.path = path ∧ ∀ e, child.result = .error e → e.path = none

/-- What is asked for stands at the path, and children one step further, at keys that differ. -/
def Asked.StandsAt : Asked → Path → Prop
  | value _ place _, path => place.path = path
  | child ch, path => ch.StandsAt path
  | gather shape chs, path => (∀ keys, shape = .object keys → keys.Nodup) ∧
      ∀ (i : Nat) ch, chs[i]? = some ch → ∃ step, shape.segment? i = some step ∧ ch.StandsAt (path.below [step])

variable {c : ExecutionContext} {a b : Asked} {v w : Json} {path : Path}

theorem Asked.StandsAt.of_mem {shape : Shape} {chs : List Child} (h : (Asked.gather shape chs).StandsAt path) {ch : Child}
    (hch : ch ∈ chs) : ∃ step, (Asked.child ch).StandsAt (path.below [step]) := by
  obtain ⟨i, hi⟩ := List.mem_iff_getElem?.1 hch
  obtain ⟨step, -, hstands⟩ := h.2 i ch hi
  exact ⟨step, hstands⟩

namespace ExecutionContext

/-- A field that is not resolved has an error that is not located. -/
theorem path_of_resolution {parent : Json} {field : Field} {definition : FieldDef} {info : FieldInfo} {e : Error}
    (h : c.resolution parent field definition info = .error e) : e.path = none := by
  have hmap : ∀ {r : Resolved}, r.mapError ResolverError.toError = .error e → e.path = none := by
    rintro (e' | v) hr
    · cases hr
      rfl
    · exact absurd hr (by simp [Except.mapError])
  unfold resolution at h
  split at h
  · cases h
    rfl
  · split at h
    · exact absurd h (by simp)
    · split at h
      · cases h
        rfl
      · exact hmap h
      · exact hmap h

theorem keys_children_sublist (c : ExecutionContext) (o : Selected) :
    ((c.children o).map Prod.fst).Sublist (o.fields.map Prod.fst) := by
  unfold children
  induction o.fields with
  | nil => exact List.Sublist.refl _
  | cons field rest ih =>
    cases hchild : c.child? o field.1 field.2 with
    | none =>
      rw [List.filterMap_cons_none (by rw [hchild]; rfl)]
      exact ih.cons field.1
    | some ch =>
      rw [List.filterMap_cons_some (by rw [hchild]; rfl)]
      exact ih.cons_cons field.1

/-- Fields stand at their keys. -/
theorem standsAt_asked (c : ExecutionContext) {o : Selected} (hkeys : (o.fields.map Prod.fst).Nodup) :
    (c.asked o).StandsAt o.path := by
  refine ⟨?_, fun i ch hch => ?_⟩
  · rintro _ ⟨⟩
    exact hkeys.sublist (c.keys_children_sublist o)
  · rw [List.getElem?_map, Option.map_eq_some_iff] at hch
    obtain ⟨⟨key, _⟩, hchild, rfl⟩ := hch
    refine ⟨.key key, ?_, ?_⟩
    · unfold Shape.segment?
      dsimp only
      rw [List.getElem?_map, hchild]
      rfl
    · obtain ⟨field, -, heq⟩ := List.mem_filterMap.1 (List.mem_of_getElem? hchild)
      obtain ⟨_, hchild?, hpair⟩ := Option.map_eq_some_iff.1 heq
      cases hpair
      obtain ⟨definition, -, rfl⟩ := Option.map_eq_some_iff.1 hchild?
      exact ⟨rfl, fun e he => path_of_resolution he⟩

/-- Fields that are collected below a group stand at their keys. -/
theorem Collects.standsAt {typeName : String} {place : Place} {collected : CollectedFields}
    (h : c.Collects typeName place.group (.ok collected)) (parent : Json) :
    (c.asked ⟨typeName, parent, place.path, collected.fields⟩).StandsAt place.path := by
  obtain ⟨collector, -, hcollected⟩ := h
  exact c.standsAt_asked (o := ⟨typeName, parent, place.path, collected.fields⟩)
    (Collector.nodup_finish hcollected (.inl rfl))

/-- Fields that are asked for stand at their keys. -/
theorem FieldsAt.standsAt {o : Selected} (h : c.FieldsAt o) : (c.asked o).StandsAt o.path := by
  have hsets : ∀ {collected : CollectedFields} {fields : GroupedFieldSet}, fields ∈ collected.sets →
      fields = collected.fields ∨ ∃ set ∈ collected.newSets, fields = set.fields := by
    intro collected fields hfields
    rcases List.mem_cons.1 hfields with heq | hset
    · exact .inl heq
    · obtain ⟨set, hset, heq⟩ := List.mem_map.1 hset
      exact .inr ⟨set, hset, heq.symm⟩
  cases h with
  | root hcollected hfields =>
    exact c.standsAt_asked (o := ⟨_, _, _, _⟩) (Collector.nodup_finish hcollected (hsets hfields))
  | object _ _ hcollected hfields =>
    obtain ⟨collector, -, hcollected⟩ := hcollected
    exact c.standsAt_asked (o := ⟨_, _, _, _⟩) (Collector.nodup_finish hcollected (hsets hfields))

/-- The fields of the operation stand at their keys. -/
theorem standsAt_opening {collected : CollectedFields} (h : c.collected = .ok collected) :
    (c.asked (c.opening collected)).StandsAt .root :=
  c.standsAt_asked (o := c.opening collected) (Collector.nodup_finish h (.inl rfl))

end ExecutionContext

theorem standsAt_itemChildren (place : Place) (type : TypeRef) (items : List FieldValue) :
    (Asked.gather .list (itemChildren type place 0 items)).StandsAt place.path := by
  refine ⟨nofun, fun i ch hch => ⟨.index i, rfl, ?_⟩⟩
  rw [itemChildren_eq, List.getElem?_mapIdx, Option.map_eq_some_iff] at hch
  obtain ⟨item, -, rfl⟩ := hch
  rw [Nat.zero_add]
  exact ⟨rfl, fun _ he => absurd he (by simp)⟩

namespace Asked

/-- What is asked for inside stands below. -/
theorem Includes.standsAt {ch : Child} (h : a.Includes c ch) (hstands : a.StandsAt path) :
    ∃ steps, ch.StandsAt (path.below steps) := by
  induction h generalizing path with
  | self => exact ⟨[], path.below_nil.symm ▸ hstands⟩
  | awaited _ _ ih => exact ih hstands
  | required _ _ ih => exact ih hstands
  | list _ _ _ _ ih => exact ih (hstands ▸ standsAt_itemChildren _ _ _)
  | object _ hcollected _ ih => exact ih (hstands ▸ hcollected.standsAt _)
  | child _ ih => exact ih hstands.1
  | gather hchild _ ih =>
    obtain ⟨step, hchild⟩ := hstands.of_mem hchild
    obtain ⟨steps, hsteps⟩ := ih hchild
    exact ⟨step :: steps, (path.below_below [step] steps) ▸ hsteps⟩

end Asked

/-! ### Errors that are raised are not located -/

namespace ExecutionContext

theorem path_of_runtimeType {abstractType : String} {site : Site} {e : Error}
    (h : Execution.runtimeType c abstractType v site = .error e) : e.path = none := by
  unfold Execution.runtimeType at h
  dsimp only at h
  split at h
  · cases h
    rfl
  · split at h
    · cases h
      rfl
    · split at h
      · exact absurd h (by simp)
      · cases h
        rfl
    · cases h
      rfl

theorem path_of_single {value : FieldValue} {typeName : String} {e : Error} (h : value.single typeName = .error e) :
    e.path = none := by
  unfold FieldValue.single at h
  split at h
  · exact absurd h (by simp)
  · cases h
    rfl
  · cases h
    rfl

theorem path_of_leaf {typeName : String} {e : Error} (h : c.leaf typeName v = .error e) : e.path = none := by
  unfold leaf at h
  split at h
  · cases h
    rfl
  · split at h
    · cases h
      rfl
    · exact absurd h (by simp)

theorem path_of_objectDemand {typeName : String} {place : Place} {e : Error}
    (h : c.objectDemand typeName place v = .outcome (.error e)) : e.path = none := by
  unfold objectDemand at h
  extract_lets isOfType at h
  split at h
  · exact absurd h (by simp)
  · cases h
    rfl

theorem path_of_namedDemand {typeName : String} {place : Place} {value : FieldValue} {e : Error}
    (h : c.namedDemand typeName place value = .outcome (.error e)) : e.path = none := by
  have hleaf : ∀ {e}, value.single typeName >>= c.leaf typeName = .error e → e.path = none := by
    intro e h
    cases hsingle : value.single typeName with
    | error e' =>
      rw [hsingle] at h
      cases h
      exact path_of_single hsingle
    | ok w =>
      rw [hsingle] at h
      exact path_of_leaf h
  unfold namedDemand at h
  split at h
  · exact hleaf (Demand.outcome.inj h)
  · exact hleaf (Demand.outcome.inj h)
  · split at h
    · rename_i hsingle
      cases h
      exact path_of_single hsingle
    · split at h
      · rename_i htype
        cases h
        exact path_of_runtimeType htype
      · exact path_of_objectDemand h
  · split at h
    · rename_i hsingle
      cases h
      exact path_of_single hsingle
    · split at h
      · rename_i htype
        cases h
        exact path_of_runtimeType htype
      · exact path_of_objectDemand h
  · split at h
    · rename_i hsingle
      cases h
      exact path_of_single hsingle
    · exact path_of_objectDemand h
  · cases h
    rfl

theorem path_of_demand {type : TypeRef} {place : Place} {value : FieldValue} {e : Error}
    (h : c.demand type place value = .outcome (.error e)) : e.path = none := by
  unfold demand at h
  split at h
  · cases h
    rfl
  · exact absurd h (by simp)
  · exact absurd h (by simp)
  · split at h
    · exact absurd h (by simp)
    · split at h
      · exact absurd h (by simp)
      · cases h
        rfl
  · split at h
    · exact absurd h (by simp)
    · exact path_of_namedDemand h

theorem Streams.path_of_error {group : FieldGroup} {e : Error} (h : c.Streams group path (.error e)) : e.path = none := by
  unfold Streams at h
  split at h
  · exact absurd h (by simp)
  · obtain ⟨nextGroup, h⟩ := h
    unfold Execution.newStreamUsage at h
    split at h
    · exact absurd h (by simp)
    · split at h
      · cases h
        rfl
      · exact absurd h (by simp)
      · dsimp only at h
        split at h
        · cases h
          rfl
        · split at h
          · cases h
            rfl
          · exact absurd h (by simp)

end ExecutionContext

/-- What is raised was not located before. -/
theorem Asked.Raises.path_eq_none {e : Error} (h : a.Raises c e) (hstands : a.StandsAt path) : e.path = none := by
  induction h with
  | outcome h => exact ExecutionContext.path_of_demand h
  | awaited _ _ ih => exact ih hstands
  | required _ _ ih => exact ih hstands
  | null => rfl
  | unstreamed _ husage => exact husage.path_of_error
  | unlisted => rfl
  | uncollected => rfl
  | child _ ih => exact ih hstands.1
  | unresolved => exact hstands.2 _ rfl

/-- An error that arises in what is asked for has a path that leads there. -/
theorem Asked.Arises.startsWith {e : Error} (h : a.Arises c e) (hstands : a.StandsAt path) :
    ∃ q, e.path = some q ∧ q.startsWith path = true := by
  obtain ⟨ch, raw, hincludes, hraises, rfl⟩ := h
  obtain ⟨steps, hpath, hresult⟩ := hincludes.standsAt hstands
  have hchild : (Asked.child ch).StandsAt (path.below steps) := ⟨hpath, hresult⟩
  refine ⟨_, Error.path_locate (hraises.path_eq_none hchild), ?_⟩
  rw [hpath]
  exact Path.startsWith_iff.2 ⟨steps, rfl⟩

/-! ### Parts stand in the value -/

namespace Asked

/-- A part is found in the value. -/
theorem Part.standsAt (hpart : a.Part c v b w) (hstands : a.StandsAt path) (hg : a.IsGrounded)
    (h : Settles c a (.ok v)) : ∃ steps, b.StandsAt (path.below steps) ∧ v.at? steps = some w := by
  have hself : ∀ {b : Asked}, b.StandsAt path → ∃ steps, b.StandsAt (path.below steps) ∧ v.at? steps = some v :=
    fun hb => ⟨[], path.below_nil.symm ▸ hb, rfl⟩
  cases hpart with
  | awaited => exact hself hstands
  | required => exact hself hstands
  | list => exact hself (hstands ▸ standsAt_itemChildren _ _ _)
  | object _ hcollected => exact hself (hstands ▸ hcollected.standsAt _)
  | child => exact hself hstands.1
  | @item _ _ values _ i hchild hvalue =>
    obtain ⟨step, hstep, hch⟩ := hstands.2 i _ hchild
    obtain rfl := Option.some.inj hstep
    exact ⟨_, hch, by rw [Json.at?_singleton]; exact hvalue⟩
  | @field keys _ _ key _ entries i hchild hentry =>
    obtain ⟨step, hstep, hch⟩ := hstands.2 i _ hchild
    refine ⟨_, hch, ?_⟩
    rw [settles_gather_iff] at h
    rcases h with ⟨values, hvalues, heq⟩ | ⟨_, _, _, _, heq⟩
    · obtain rfl : entries = keys.zip values := Json.object.inj (Except.ok.inj heq)
      have hlength := hvalues.length_eq
      have hkeys : Dict.keys (keys.zip values) = keys := List.map_fst_zip (Nat.le_of_eq (by rw [hg.2 keys rfl, hlength]))
      have hmem := List.mem_of_getElem? hentry
      rw [List.getElem?_zip_eq_some] at hentry
      unfold Shape.segment? at hstep
      dsimp only at hstep
      rw [hentry.1] at hstep
      obtain rfl := Option.some.inj hstep
      rw [Json.at?_singleton]
      exact Dict.get?_of_mem (hkeys.symm ▸ hstands.1 keys rfl) hmem
    · exact absurd heq (by simp)

/-- What stands in a value is found there. -/
theorem Holds.standsAt (hheld : a.Holds c v b w) (hstands : a.StandsAt path) (hg : a.IsGrounded)
    (h : Settles c a (.ok v)) : ∃ steps, b.StandsAt (path.below steps) ∧ v.at? steps = some w := by
  induction hheld with
  | self => exact ⟨[], path.below_nil.symm ▸ hstands, rfl⟩
  | part hheld hpart ih =>
    obtain ⟨steps, hb, hat⟩ := ih
    obtain ⟨steps', hb', hat'⟩ := hpart.standsAt hb (hheld.settles hg h).1 (hheld.settles hg h).2
    refine ⟨steps ++ steps', path.below_below _ _ ▸ hb', ?_⟩
    rw [Json.at?_append, hat]
    exact hat'

end Asked

end GraphQL
