import GraphQL.Proofs.Meaning.Settles

/-!
# Values of declared types

A value conforms to a type if nothing in it is null that must not be, lists are arrays of conforming items, leaves come
from the serializer of their type, and objects have a conforming value for each field that is collected for an object
type.  Everything that results of resolvers come to conforms to the type that is declared at its place
(`Settles.conforms`).  `ExecutionContext.ValueAt` and `ExecutionContext.FieldsAt` say which types are declared where,
and what the resolvers give there.
-/

namespace GraphQL

/-- The object type may be that of a value of the type. -/
def Schema.HasRuntimeType (s : Schema) (typeName objectType : String) : Prop :=
  s.typeKind? objectType = some .object ∧ s.isSubType typeName objectType = true

/-- The types and groups of fields that the object type has. -/
def ExecutionContext.declared (c : ExecutionContext) (objectType : String) (fields : GroupedFieldSet) :
    List (String × TypeRef × FieldGroup) :=
  fields.filterMap fun field =>
    (c.schema.field? objectType field.2.first.node.name.value).map fun definition =>
      (field.1, definition.type, field.2)

/-- The value conforms to the type, for a group that asks for it. -/
inductive Conforms (c : ExecutionContext) : TypeRef → FieldGroup → Json → Prop
  | null {type group} (h : type.isNonNull = false) : Conforms c type group .null
  | nonNull {type group v} (h : Conforms c type group v) (hv : v ≠ .null) : Conforms c (.nonNull type) group v
  | leaf {typeName group v w} (hkind : c.schema.typeKind? typeName = some .scalar ∨
      c.schema.typeKind? typeName = some .enum) (h : c.schema.serializeLeaf typeName w = .ok v) (hv : v ≠ .null) :
      Conforms c (.named typeName) group v
  | list {type group values} (h : ∀ v ∈ values, Conforms c type group v) : Conforms c (.list type) group (.array values)
  | object {typeName objectType group collected} {entries : List (String × Json)}
      (htype : c.schema.HasRuntimeType typeName objectType)
      (hcollected : c.Collects objectType group (.ok collected))
      (hkeys : entries.map Prod.fst = (c.declared objectType collected.fields).map Prod.fst)
      (h : ∀ (i : Nat) (field : String × TypeRef × FieldGroup) (entry : String × Json),
        (c.declared objectType collected.fields)[i]? = some field → entries[i]? = some entry →
        Conforms c field.2.1 field.2.2 entry.2) :
      Conforms c (.named typeName) group (.object entries)

/-- The value is an object with a conforming value for each of some fields. -/
def ConformsTo (c : ExecutionContext) (objectType : String) (fields : GroupedFieldSet) (v : Json) : Prop :=
  ∃ entries : List (String × Json), v = .object entries ∧
    entries.map Prod.fst = (c.declared objectType fields).map Prod.fst ∧
    ∀ (i : Nat) (field : String × TypeRef × FieldGroup) (entry : String × Json),
      (c.declared objectType fields)[i]? = some field → entries[i]? = some entry →
      Conforms c field.2.1 field.2.2 entry.2

/-! ### What stands where -/

/-- All sets of fields that are collected together. -/
def CollectedFields.sets (collected : CollectedFields) : List GroupedFieldSet :=
  collected.fields :: collected.newSets.map NewFieldSet.fields

namespace ExecutionContext

mutual

/-- The fields are asked for at their path, of the object that the resolvers give there. -/
inductive FieldsAt (c : ExecutionContext) : Selected → Prop
  | root {collected fields}
      (hcollected : (({} : Collector).collectFields c.collection c.rootType c.operation.selectionSet.selections).1 =
        .ok collected) (hfields : fields ∈ collected.sets) :
      FieldsAt c ⟨c.rootType, c.rootValue, .root, fields⟩
  | object {type place v typeName parent collected fields} (hv : ValueAt c type place v)
      (h : c.demand type place v = .object typeName parent)
      (hcollected : c.Collects typeName place.group (.ok collected)) (hfields : fields ∈ collected.sets) :
      FieldsAt c ⟨typeName, parent, place.path, fields⟩

/-- The type is declared at the place, and the resolvers give the value there. -/
inductive ValueAt (c : ExecutionContext) : TypeRef → Place → FieldValue → Prop
  | field {o key type place v} (ho : FieldsAt c o) (h : (key, ⟨type, place, .ok v⟩) ∈ c.children o) :
      ValueAt c type place v
  | awaited {type place v later} (hv : ValueAt c type place v) (h : c.demand type place v = .value later) :
      ValueAt c type place later
  | required {type place v inner} (hv : ValueAt c type place v) (h : c.demand type place v = .required inner) :
      ValueAt c inner place v
  | item {type place v itemType source item} {i : Nat} (hv : ValueAt c type place v)
      (h : c.demand type place v = .items itemType source) (hi : source.outcomes[i]? = some (.ok item)) :
      ValueAt c itemType (place.index i) item
  | streamed {type place v itemType source usage item} {i : Nat} (hv : ValueAt c type place v)
      (h : c.demand type place v = .items itemType source)
      (husage : c.Streams place.group place.path (.ok (some usage))) (hi : source.outcomes[i]? = some (.ok item)) :
      ValueAt c itemType { place.index i with group := usage.group } item

end

end ExecutionContext

/-! ### What values come to conforms -/

variable {c : ExecutionContext} {type : TypeRef} {place : Place} {value : FieldValue}

theorem eq_null_of_isNull {v : Json} (h : v.isNull = true) : v = .null := by
  cases v <;> simp_all [Json.isNull]

namespace ExecutionContext

/-- The runtime type of a value is an object type that the abstract type allows. -/
theorem hasRuntimeType_of_runtimeType {abstractType objectType : String} {v : Json} {site : Site}
    (h : Execution.runtimeType c abstractType v site = .ok objectType) :
    c.schema.HasRuntimeType abstractType objectType := by
  unfold Execution.runtimeType at h
  dsimp only at h
  split at h
  · exact absurd h (by simp)
  · rename_i name _
    split at h
    · exact absurd h (by simp)
    · rename_i hkind
      split at h
      · rename_i hsub
        cases h
        exact ⟨hkind, hsub⟩
      · exact absurd h (by simp)
    · exact absurd h (by simp)

/-- A named type comes down to an outcome or an object. -/
theorem namedDemand_cases (c : ExecutionContext) (typeName : String) (place : Place) (value : FieldValue) :
    ((c.schema.typeKind? typeName = some .scalar ∨ c.schema.typeKind? typeName = some .enum) ∧
        c.namedDemand typeName place value = .outcome (value.single typeName >>= c.leaf typeName)) ∨
      (∃ e, c.namedDemand typeName place value = .outcome (.error e)) ∨
      ∃ objectType v, c.schema.HasRuntimeType typeName objectType ∧
        c.namedDemand typeName place value = .object objectType v := by
  have hobject : ∀ {objectType v}, c.schema.HasRuntimeType typeName objectType →
      (∃ e, c.objectDemand objectType place v = .outcome (.error e)) ∨
      ∃ objectType' v', c.schema.HasRuntimeType typeName objectType' ∧
        c.objectDemand objectType place v = .object objectType' v' := by
    intro objectType v htype
    unfold objectDemand
    extract_lets isOfType
    split
    · exact .inr ⟨objectType, v, htype, rfl⟩
    · exact .inl ⟨_, rfl⟩
  unfold namedDemand
  split
  · rename_i hkind
    exact .inl ⟨.inl hkind, rfl⟩
  · rename_i hkind
    exact .inl ⟨.inr hkind, rfl⟩
  all_goals right
  · split
    · exact .inl ⟨_, rfl⟩
    · split
      · exact .inl ⟨_, rfl⟩
      · exact hobject (hasRuntimeType_of_runtimeType ‹_›)
  · split
    · exact .inl ⟨_, rfl⟩
    · split
      · exact .inl ⟨_, rfl⟩
      · exact hobject (hasRuntimeType_of_runtimeType ‹_›)
  · rename_i hkind
    split
    · exact .inl ⟨_, rfl⟩
    · exact hobject ⟨hkind, by simp [Schema.isSubType]⟩
  · exact .inl ⟨_, rfl⟩

theorem demand_eq_required {inner : TypeRef} (h : c.demand type place value = .required inner) :
    type = .nonNull inner := by
  unfold demand at h
  split at h
  · exact absurd h (by simp)
  · exact absurd h (by simp)
  · cases h
    rfl
  · split at h
    · exact absurd h (by simp)
    · split at h <;> exact absurd h (by simp)
  · split at h
    · exact absurd h (by simp)
    · rcases namedDemand_cases c _ place value with ⟨-, heq⟩ | ⟨e, heq⟩ | ⟨objectType, v, -, heq⟩ <;>
        exact absurd (heq.symm.trans h) (by simp)

theorem demand_eq_items {itemType : TypeRef} {source : ItemSource}
    (h : c.demand type place value = .items itemType source) :
    type = .list itemType ∧ value.items? = some source := by
  unfold demand at h
  split at h
  · exact absurd h (by simp)
  · exact absurd h (by simp)
  · exact absurd h (by simp)
  · split at h
    · exact absurd h (by simp)
    · split at h
      · rename_i hitems
        cases h
        exact ⟨rfl, hitems⟩
      · exact absurd h (by simp)
  · split at h
    · exact absurd h (by simp)
    · rcases namedDemand_cases c _ place value with ⟨-, heq⟩ | ⟨e, heq⟩ | ⟨objectType, v, -, heq⟩ <;>
        exact absurd (heq.symm.trans h) (by simp)

theorem demand_eq_object {objectType : String} {parent : Json}
    (h : c.demand type place value = .object objectType parent) :
    ∃ typeName, type = .named typeName ∧ c.schema.HasRuntimeType typeName objectType := by
  unfold demand at h
  split at h
  · exact absurd h (by simp)
  · exact absurd h (by simp)
  · exact absurd h (by simp)
  · split at h
    · exact absurd h (by simp)
    · split at h <;> exact absurd h (by simp)
  · rename_i typeName _ _
    split at h
    · exact absurd h (by simp)
    · rcases namedDemand_cases c typeName place value with ⟨-, heq⟩ | ⟨e, heq⟩ | ⟨objectType', v, htype, heq⟩
      · exact absurd (heq.symm.trans h) (by simp)
      · exact absurd (heq.symm.trans h) (by simp)
      · obtain ⟨rfl, -⟩ := Demand.object.inj (heq.symm.trans h)
        exact ⟨typeName, rfl, htype⟩

/-- What is settled at once conforms. -/
theorem conforms_of_demand {v : Json} (h : c.demand type place value = .outcome (.ok v)) (group : FieldGroup) :
    Conforms c type group v := by
  unfold demand at h
  split at h
  · exact absurd h (by simp)
  · exact absurd h (by simp)
  · exact absurd h (by simp)
  · split at h
    · cases h
      exact .null rfl
    · split at h <;> exact absurd h (by simp)
  · rename_i typeName _ _
    split at h
    · cases h
      exact .null rfl
    · rcases namedDemand_cases c typeName place value with ⟨hkind, heq⟩ | ⟨e, heq⟩ | ⟨objectType', w, -, heq⟩
      · have hleaf := Demand.outcome.inj (heq.symm.trans h)
        cases hsingle : value.single typeName with
        | error e =>
          rw [hsingle] at hleaf
          exact absurd hleaf (by simp [bind, Except.bind])
        | ok w =>
          rw [hsingle] at hleaf
          have hleaf : c.leaf typeName w = .ok v := hleaf
          unfold leaf at hleaf
          split at hleaf
          · exact absurd hleaf (by simp)
          · rename_i hserialized
            split at hleaf
            · exact absurd hleaf (by simp)
            · rename_i hnull
              cases hleaf
              exact .leaf hkind hserialized fun heq => hnull (by rw [heq]; rfl)
      · exact absurd (heq.symm.trans h) (by simp)
      · exact absurd (heq.symm.trans h) (by simp)

end ExecutionContext

/-- The outcome conforms to the types of what is asked for. -/
def Asked.IsTyped (c : ExecutionContext) : Asked → Json → Prop
  | .value type place _, v => Conforms c type place.group v
  | .child ch, v => Conforms c ch.type ch.place.group v
  | .gather shape chs, v => ∃ values, v = shape.assemble values ∧ values.length = chs.length ∧
      ∀ (i : Nat) ch w, chs[i]? = some ch → values[i]? = some w → Conforms c ch.type ch.place.group w

/-- The fields of an object are the children at its keys. -/
theorem ExecutionContext.map_children (c : ExecutionContext) (o : Selected) :
    (c.children o).map (fun f => (f.1, f.2.type, f.2.place.group)) = c.declared o.typeName o.fields := by
  unfold children declared
  rw [List.map_filterMap]
  congr 1
  funext field
  unfold child?
  cases c.schema.field? o.typeName field.2.first.node.name.value <;> rfl

theorem itemChildren_eq (type : TypeRef) (place : Place) (position : Nat) (items : List FieldValue) :
    itemChildren type place position items =
      items.mapIdx fun i item => ⟨type, place.index (position + i), .ok item⟩ := by
  induction items generalizing position with
  | nil => rfl
  | cons item rest ih =>
    rw [itemChildren, ih, List.mapIdx_cons]
    simp only [Nat.add_zero, Nat.add_assoc, Nat.add_comm 1]

theorem Asked.IsTyped.list {v : Json} {itemType : TypeRef} {items : List FieldValue}
    (h : (Asked.gather .list (itemChildren itemType place 0 items)).IsTyped c v) :
    Conforms c (.list itemType) place.group v := by
  obtain ⟨values, rfl, hlength, hvalues⟩ := h
  refine .list fun v hv => ?_
  obtain ⟨i, hi⟩ := List.mem_iff_getElem?.1 hv
  have hlt : i < (itemChildren itemType place 0 items).length := by
    rw [← hlength]
    exact (List.getElem?_eq_some_iff.1 hi).1
  have hchild := List.getElem?_eq_getElem hlt
  have hconforms := hvalues i _ v hchild hi
  simp only [itemChildren_eq, List.getElem_mapIdx] at hconforms
  exact hconforms

theorem Asked.IsTyped.to {o : Selected} {v : Json} (h : (c.asked o).IsTyped c v) :
    ConformsTo c o.typeName o.fields v := by
  obtain ⟨values, rfl, hlength, hvalues⟩ := h
  have hlen : values.length = (c.children o).length := by rw [hlength, List.length_map]
  refine ⟨_, rfl, ?_, fun i field entry hfield hentry => ?_⟩
  · rw [List.map_fst_zip (by simp [hlen]), ← c.map_children, List.map_map]
    rfl
  · rw [← c.map_children, List.getElem?_map, Option.map_eq_some_iff] at hfield
    obtain ⟨child, hchild, rfl⟩ := hfield
    rw [List.getElem?_zip_eq_some] at hentry
    refine hvalues i child.2 entry.2 ?_ hentry.2
    rw [List.getElem?_map, hchild]
    rfl

/-- What results of resolvers come to conforms to its type. -/
theorem Settles.conforms {asked : Asked} {out : Except Error Json} (h : Settles c asked out) {v : Json}
    (hv : out = .ok v) : asked.IsTyped c v := by
  induction h generalizing v with
  | outcome h =>
    subst hv
    exact ExecutionContext.conforms_of_demand h _
  | awaited _ _ ih => exact ih hv
  | @required type place value inner out h _ ih =>
    rw [ExecutionContext.demand_eq_required h]
    cases out with
    | error e => exact absurd hv (by simp [FieldInfo.required])
    | ok w =>
      unfold FieldInfo.required at hv
      dsimp only at hv
      split at hv
      · exact absurd hv (by simp)
      · rename_i hnull
        cases hv
        exact .nonNull (ih rfl) fun heq => hnull (by rw [heq]; rfl)
  | unstreamed => exact absurd hv (by simp)
  | unlisted => exact absurd hv (by simp)
  | list h _ _ _ ih =>
    obtain ⟨rfl, -⟩ := ExecutionContext.demand_eq_items h
    exact (ih hv).list
  | uncollected => exact absurd hv (by simp)
  | object h hcollected _ ih =>
    obtain ⟨typeName, rfl, htype⟩ := ExecutionContext.demand_eq_object h
    obtain ⟨entries, rfl, hkeys, hentries⟩ := (ih hv).to
    exact .object htype hcollected hkeys hentries
  | @child type place value out _ ih =>
    cases out with
    | ok w =>
      cases hv
      exact ih rfl
    | error e =>
      unfold Child.absorbed at hv
      dsimp only at hv
      split at hv
      · exact absurd hv (by simp)
      · rename_i hnull
        cases hv
        exact .null (by simpa using hnull)
  | @unresolved type place e =>
    unfold Child.absorbed at hv
    dsimp only at hv
    split at hv
    · exact absurd hv (by simp)
    · rename_i hnull
      cases hv
      exact .null (by simpa using hnull)
  | gathered hlength _ ih =>
    cases hv
    exact ⟨_, rfl, hlength, fun i child w hchild hw => ih i child w hchild hw rfl⟩
  | failed => exact absurd hv (by simp)

end GraphQL
