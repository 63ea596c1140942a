import GraphQL.Execution.Completion
import GraphQL.Proofs.Schema.Validity

/-!
# Possible types

The object types of an abstract type are known in two ways.  `Schema.possibleTypes` lists them, by a pass over all types;
`Schema.isSubType` decides about one of them, by the definitions of the two types alone.  In a schema that was built the two
agree (`SchemaDraft.possibleTypes_agree`): a type is found under its own name only (`SchemaDraft.mem_values_types`), what a
union lists is an object type, and what an object type implements is an interface.
-/

namespace GraphQL

namespace SchemaDraft

variable {calls : List Call} {s : Schema}

/-! ### Types by their names -/

/-- A type counts exactly if it is found under its name. -/
theorem mem_values_types {type : TypeDef} :
    type ∈ Dict.values (ofCalls calls).types ↔ Dict.get? (ofCalls calls).types type.name = some type := by
  rw [values_types_ofCalls, mem_types_iff, get?_types_ofCalls]
  constructor
  · rintro ⟨name, hname⟩
    have hmem := List.mem_filter.1 (List.mem_of_getLast? hname)
    rwa [show type.name = name by simpa using hmem.2]
  · intro h
    exact ⟨type.name, h⟩

theorem types_of_build (h : (ofCalls calls).build = .ok s) : s.types = (ofCalls calls).types := by
  obtain ⟨query, -, rfl⟩ := eq_of_build h
  rfl

/-- A type of a built schema is found under its own name. -/
theorem mem_values_of_build (h : (ofCalls calls).build = .ok s) {type : TypeDef} :
    type ∈ Dict.values s.types ↔ Dict.get? s.types type.name = some type := by
  rw [types_of_build h]
  exact mem_values_types

theorem name_of_get? (h : (ofCalls calls).build = .ok s) {name : String} {type : TypeDef}
    (htype : Dict.get? s.types name = some type) : type.name = name := by
  rw [types_of_build h, get?_types_ofCalls] at htype
  have hmem := List.mem_filter.1 (List.mem_of_getLast? htype)
  simpa using hmem.2

/-! ### What is listed -/

theorem mem_possibleTypesFrom_union {abstractType name : String} {d : UnionDef} :
    name ∈ Schema.possibleTypesFrom abstractType (.union d) ↔ d.name = abstractType ∧ name ∈ d.members := by
  by_cases hd : d.name = abstractType
  · simp [Schema.possibleTypesFrom, hd]
  · simp [Schema.possibleTypesFrom, hd]

theorem mem_possibleTypesFrom_object {abstractType name : String} {d : CompositeDef} :
    name ∈ Schema.possibleTypesFrom abstractType (.object d) ↔ d.name = name ∧ abstractType ∈ d.implements := by
  unfold Schema.possibleTypesFrom
  constructor
  · intro hname
    obtain ⟨interface, hinterface, heq⟩ := List.mem_map.1 hname
    obtain ⟨hmem, hself⟩ := List.mem_filter.1 hinterface
    exact ⟨heq, of_decide_eq_true hself ▸ hmem⟩
  · rintro ⟨hself, hmem⟩
    exact List.mem_map.2 ⟨abstractType, List.mem_filter.2 ⟨hmem, by simp⟩, hself⟩

/-- A name is listed for a union that has it as a member, and for what its object type implements. -/
theorem mem_possibleTypes (h : (ofCalls calls).build = .ok s) {abstractType name : String} :
    name ∈ s.possibleTypes abstractType ↔
      (∃ d, Dict.get? s.types abstractType = some (.union d) ∧ name ∈ d.members) ∨
      ∃ d, Dict.get? s.types name = some (.object d) ∧ abstractType ∈ d.implements := by
  unfold Schema.possibleTypes
  rw [List.mem_flatMap]
  constructor
  · rintro ⟨type, htype, hname⟩
    rw [mem_values_of_build h] at htype
    cases type with
    | union d =>
      obtain ⟨rfl, hmember⟩ := mem_possibleTypesFrom_union.1 hname
      exact .inl ⟨d, htype, hmember⟩
    | object d =>
      obtain ⟨rfl, hinterface⟩ := mem_possibleTypesFrom_object.1 hname
      exact .inr ⟨d, htype, hinterface⟩
    | scalar | interface | enum | inputObject => exact absurd hname List.not_mem_nil
  · rintro (⟨d, hd, hmember⟩ | ⟨d, hd, hinterface⟩)
    · obtain rfl : d.name = abstractType := name_of_get? h hd
      exact ⟨.union d, (mem_values_of_build h).2 hd, mem_possibleTypesFrom_union.2 ⟨rfl, hmember⟩⟩
    · obtain rfl : d.name = name := name_of_get? h hd
      exact ⟨.object d, (mem_values_of_build h).2 hd, mem_possibleTypesFrom_object.2 ⟨rfl, hinterface⟩⟩

/-! ### What may be listed -/

/-- The members of a union are object types. -/
theorem typeKind?_member (h : (ofCalls calls).build = .ok s) {union member : String} {d : UnionDef}
    (hd : Dict.get? s.types union = some (.union d)) (hmember : member ∈ d.members) :
    s.typeKind? member = some .object := by
  have hmem : TypeDef.union d ∈ Dict.values s.types := List.mem_map.2 ⟨_, Dict.mem_of_get? hd, rfl⟩
  have hmet := (met_of_build h).2 _ hmem (.member d.name member) (List.mem_map.2 ⟨member, hmember, rfl⟩)
  exact (Reference.met_of_kind rfl).1 hmet

/-- What an object type implements are interfaces. -/
theorem typeKind?_implemented (h : (ofCalls calls).build = .ok s) {name interface : String} {d : CompositeDef}
    (hd : Dict.get? s.types name = some (.object d)) (hinterface : interface ∈ d.implements) :
    s.typeKind? interface = some .interface := by
  have hmem : TypeDef.object d ∈ Dict.values s.types := List.mem_map.2 ⟨_, Dict.mem_of_get? hd, rfl⟩
  exact (Reference.met_composite.1 ((met_of_build h).2 _ hmem)).2 interface hinterface

/-- Only abstract types have possible types. -/
theorem isAbstract_of_mem_possibleTypes (h : (ofCalls calls).build = .ok s) {abstractType name : String}
    (hname : name ∈ s.possibleTypes abstractType) : (s.typeKind? abstractType).any TypeKind.isAbstract = true := by
  obtain ⟨d, hd, -⟩ | ⟨d, hd, hinterface⟩ := (mem_possibleTypes h).1 hname
  · unfold Schema.typeKind?
    rw [hd]
    rfl
  · rw [typeKind?_implemented h hd hinterface]
    rfl

/-- The type with a name is an object. -/
theorem exists_object {name : String} (h : s.typeKind? name = some .object) :
    ∃ d, Dict.get? s.types name = some (.object d) := by
  unfold Schema.typeKind? at h
  obtain ⟨type, htype, hkind⟩ := Option.map_eq_some_iff.1 h
  cases type with
  | object d => exact ⟨d, htype⟩
  | scalar | interface | union | enum | inputObject => exact absurd hkind (by simp [TypeDef.kind])

/-- The possible types of an abstract type are the object types below it. -/
theorem mem_possibleTypes_iff (h : (ofCalls calls).build = .ok s) {abstractType : String}
    (habstract : (s.typeKind? abstractType).any TypeKind.isAbstract = true) {name : String} :
    name ∈ s.possibleTypes abstractType ↔ s.typeKind? name = some .object ∧ s.isSubType abstractType name = true := by
  rw [mem_possibleTypes h]
  unfold Schema.isSubType
  rw [Bool.or_eq_true, decide_eq_true_eq]
  constructor
  · rintro (⟨d, hd, hname⟩ | ⟨d, hd, hinterface⟩)
    · refine ⟨typeKind?_member h hd hname, .inr ?_⟩
      rw [hd]
      simpa using hname
    · have hobject : s.typeKind? name = some .object := by
        unfold Schema.typeKind?
        rw [hd]
        rfl
      have hkind := typeKind?_implemented h hd hinterface
      unfold Schema.typeKind? at hkind
      obtain ⟨type, htype, hkind⟩ := Option.map_eq_some_iff.1 hkind
      refine ⟨hobject, .inr ?_⟩
      cases type with
      | interface d' =>
        rw [htype, hd]
        simpa using hinterface
      | scalar | object | union | enum | inputObject => exact absurd hkind (by simp [TypeDef.kind])
  · rintro ⟨hobject, hsub⟩
    obtain ⟨object, hget⟩ := exists_object hobject
    have hne : abstractType ≠ name := by
      -- an object type is not abstract
      rintro rfl
      rw [hobject] at habstract
      exact absurd habstract (by simp [TypeKind.isAbstract])
    replace hsub := hsub.resolve_left hne
    split at hsub
    · rename_i d hd
      exact .inl ⟨d, hd, by simpa using hsub⟩
    · rw [hget] at hsub
      exact .inr ⟨object, hget, by simpa using hsub⟩
    · exact absurd hsub Bool.false_ne_true

/-! ### Where the two are used -/

/-- A type that is found among the possible ones, because its test accepts the value, is accepted. -/
theorem runtimeType_of_test (h : (ofCalls calls).build = .ok s) {c : ExecutionContext} (hc : c.schema = s)
    {abstractType : String} (habstract : (s.typeKind? abstractType).any TypeKind.isAbstract = true) {value : Json}
    (hresolver : Dict.get? c.resolvers.typeResolvers abstractType = none)
    (hown : ∀ name, value.get? "__typename" ≠ some (.string name)) {name : String}
    (hfound : Execution.defaultRuntimeType c abstractType value = some name) (site : Site) :
    Execution.runtimeType c abstractType value site = .ok name := by
  have hmem : name ∈ s.possibleTypes abstractType := by
    unfold Execution.defaultRuntimeType at hfound
    split at hfound
    · rename_i own heq
      exact absurd heq (hown own)
    · exact hc ▸ List.mem_of_find?_eq_some hfound
  obtain ⟨hobject, hsub⟩ := (mem_possibleTypes_iff h habstract).1 hmem
  unfold Execution.runtimeType
  rw [hresolver]
  dsimp only
  rw [hfound, hc]
  dsimp only
  rw [hobject]
  dsimp only
  rw [if_pos hsub]

/-- A type condition holds for an object type that has the name or is a possible type of it. -/
theorem conditionHolds_iff (h : (ofCalls calls).build = .ok s) {c : CollectionContext} (hc : c.schema = s)
    {objectType : String} (hobject : s.typeKind? objectType = some .object) (condition : Name) :
    c.conditionHolds (some condition) objectType = true ↔
      objectType = condition.value ∨ objectType ∈ s.possibleTypes condition.value := by
  unfold CollectionContext.conditionHolds
  rw [hc, Bool.or_eq_true, decide_eq_true_eq, Bool.and_eq_true, eq_comm]
  refine or_congr_right ?_
  constructor
  · rintro ⟨habstract, hsub⟩
    exact (mem_possibleTypes_iff h habstract).2 ⟨hobject, hsub⟩
  · intro hmem
    have habstract := isAbstract_of_mem_possibleTypes h hmem
    exact ⟨habstract, ((mem_possibleTypes_iff h habstract).1 hmem).2⟩

/-- **Possible types and subtyping agree.**  In every schema that is built, the possible types of an abstract type are
the object types below it.  So a type that is found for a value among the possible ones is always accepted, and a fragment
applies to the object types that are its condition or possible types of it. -/
theorem possibleTypes_agree (h : (ofCalls calls).build = .ok s) :
    (∀ abstractType, (s.typeKind? abstractType).any TypeKind.isAbstract = true → ∀ name,
      (name ∈ s.possibleTypes abstractType ↔
        s.typeKind? name = some .object ∧ s.isSubType abstractType name = true)) ∧
    (∀ c : ExecutionContext, c.schema = s → ∀ abstractType,
      (s.typeKind? abstractType).any TypeKind.isAbstract = true → ∀ value : Json,
      Dict.get? c.resolvers.typeResolvers abstractType = none →
      (∀ name, value.get? "__typename" ≠ some (.string name)) → ∀ name,
      Execution.defaultRuntimeType c abstractType value = some name → ∀ site,
      Execution.runtimeType c abstractType value site = .ok name) ∧
    ∀ c : CollectionContext, c.schema = s → ∀ objectType, s.typeKind? objectType = some .object → ∀ condition : Name,
      (c.conditionHolds (some condition) objectType = true ↔
        objectType = condition.value ∨ objectType ∈ s.possibleTypes condition.value) := by
  refine ⟨?_, ?_, ?_⟩
  · intro abstractType habstract name
    exact mem_possibleTypes_iff h habstract
  · intro c hc abstractType habstract value hresolver hown name hfound site
    exact runtimeType_of_test h hc habstract hresolver hown hfound site
  · intro c hc objectType hobject condition
    exact conditionHolds_iff h hc hobject condition

/-- An interface below another one, a union that lists a member twice, and a cat that was an interface at first. -/
def animalCalls : List Call :=
  [.root .query "Query", .type (.interface { name := "Cat" }), .type (.interface { name := "Named" }),
    .type (.interface { name := "Animal", implements := ["Named"] }),
    .type (.object { name := "Dog", implements := ["Animal", "Named"] }),
    .type (.object { name := "Cat", implements := ["Animal"] }),
    .type (.union { name := "Pet", members := ["Cat", "Dog", "Cat"] }),
    .type (.ofFields "Query" [("pets", .list (.named "Pet"))])]

/-- The schema with the animals. -/
def animals : Schema := ⟨"Query", none, none, (ofCalls animalCalls).types, (ofCalls animalCalls).directives⟩

/-- Whatever barks is a dog. -/
def animalResolvers : ResolverMap where
  isTypeOf := [("Cat", fun v _ => (v.get? "meows").isSome), ("Dog", fun v _ => (v.get? "barks").isSome)]

/-- The cat is no possible type of `Named`, whose implementation by way of `Animal` does not count.  What barks is found
to be a dog, and a fragment on `Pet` applies to a cat. -/
theorem animals_agree : (ofCalls animalCalls).build = .ok animals ∧
    animals.possibleTypes "Pet" = ["Cat", "Dog", "Cat"] ∧ animals.possibleTypes "Animal" = ["Cat", "Dog"] ∧
    animals.possibleTypes "Named" = ["Dog"] ∧
    ¬ (animals.typeKind? "Cat" = some .object ∧ animals.isSubType "Named" "Cat" = true) ∧
    (∀ c : ExecutionContext, c.schema = animals → c.resolvers = animalResolvers → ∀ site,
      Execution.runtimeType c "Pet" (.object [("barks", .bool true)]) site = .ok "Dog") ∧
    ∀ c : CollectionContext, c.schema = animals → c.conditionHolds (some ⟨"Pet", .empty 0⟩) "Cat" = true := by
  have hbuild : (ofCalls animalCalls).build = .ok animals := rfl
  obtain ⟨hpossible, hruntime, hcondition⟩ := possibleTypes_agree hbuild
  refine ⟨hbuild, by decide, by decide, by decide, ?_, ?_, ?_⟩
  · intro hsub
    have hmem := (hpossible "Named" (by decide) "Cat").2 hsub
    exact absurd hmem (by decide)
  · intro c hc hresolvers site
    have hown : (Json.object [("barks", .bool true)]).get? "__typename" = none := rfl
    refine hruntime c hc "Pet" (by decide) _ ?_ (by simp [hown]) "Dog" ?_ site
    · rw [hresolvers]
      rfl
    · unfold Execution.defaultRuntimeType
      rw [hc, hresolvers]
      rfl
  · intro c hc
    exact (hcondition c hc "Cat" (by decide) ⟨"Pet", .empty 0⟩).2 (.inr (by decide))

end SchemaDraft

end GraphQL
