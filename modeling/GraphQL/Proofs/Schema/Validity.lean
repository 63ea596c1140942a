import GraphQL.Proofs.Schema.Built
import Mathlib.Data.List.Basic
import Mathlib.Data.List.Induction

/-!
# Which schemas can be built

A draft is made by calls of a builder, one after the other, and what it says can be read off the calls alone: the last
definition of a type counts, and a type stands where its name was first defined (`SchemaDraft.types_ofCalls`).

Every name that leads from one type to another is a `Reference`, which asks for a type of some kind.  The draft can be
built exactly if all references are met (`SchemaDraft.WellFormed`), and if not, the error is that of the first one that
is not (`SchemaDraft.build_ofCalls`).
-/

namespace GraphQL

/-! ### Dictionaries of entries written one after the other -/

namespace Dict

variable {α : Type}

theorem ofEntries_concat (entries : List (String × α)) (e : String × α) :
    ofEntries (entries ++ [e]) = insert (ofEntries entries) e.1 e.2 := by
  unfold ofEntries
  rw [List.foldl_append]
  rfl

theorem keys_insert (d : Dict α) (key : String) (value : α) :
    keys (insert d key value) = if key ∈ keys d then keys d else keys d ++ [key] := by
  induction d with
  | nil => rfl
  | cons e rest ih =>
    obtain ⟨k, v⟩ := e
    unfold insert
    by_cases hk : k = key
    · have hmem : key ∈ keys ((k, v) :: rest) := hk ▸ List.mem_cons_self
      rw [if_pos hk, if_pos hmem]
      rfl
    · rw [if_neg hk]
      change k :: keys (insert rest key value) = if key ∈ k :: keys rest then k :: keys rest else k :: keys rest ++ [key]
      rw [ih]
      by_cases hmem : key ∈ keys rest
      · rw [if_pos hmem, if_pos (List.mem_cons_of_mem _ hmem)]
      · rw [if_neg hmem, if_neg fun h => (List.mem_cons.1 h).elim (fun heq => hk heq.symm) hmem]
        rfl

/-- A key stands where it was first written. -/
theorem keys_ofEntries (entries : List (String × α)) : keys (ofEntries entries) = (entries.map (·.1)).eraseDups := by
  induction entries using List.reverseRecOn with
  | nil => rfl
  | append_singleton entries e ih =>
    have hlast : [e.1].removeAll (entries.map (·.1)) = if e.1 ∈ entries.map (·.1) then [] else [e.1] := by
      by_cases h : e.1 ∈ entries.map (·.1)
      · simp [List.removeAll, h]
      · simp [List.removeAll, h]
    rw [ofEntries_concat, keys_insert, ih, List.map_append, List.map_singleton, List.eraseDups_append, hlast]
    by_cases h : e.1 ∈ entries.map (·.1)
    · rw [if_pos (List.mem_eraseDups.2 h), if_pos h]
      simp
    · rw [if_neg fun hmem => h (List.mem_eraseDups.1 hmem), if_neg h, List.eraseDups_cons]
      rfl

/-- The value of a key is the one last written. -/
theorem get?_ofEntries (entries : List (String × α)) (key : String) :
    get? (ofEntries entries) key = ((entries.filter (·.1 = key)).getLast?).map (·.2) := by
  induction entries using List.reverseRecOn with
  | nil => rfl
  | append_singleton entries e ih =>
    rw [ofEntries_concat, get?_insert, ih, List.filter_append]
    by_cases h : e.1 = key
    · simp [h]
    · simp [h]

/-- With distinct keys, the values are those that are found. -/
theorem values_eq_filterMap {d : Dict α} (hkeys : (keys d).Nodup) : values d = (keys d).filterMap (get? d) := by
  have hfound : ∀ e ∈ d, (get? d ∘ Prod.fst) e = some e.2 := fun e he => get?_of_mem hkeys he
  unfold keys
  rw [List.filterMap_map, List.filterMap_congr hfound]
  exact (congrFun List.filterMap_eq_map' d).symm

theorem nodup_keys_ofEntries (entries : List (String × α)) : (keys (ofEntries entries)).Nodup := by
  induction entries using List.reverseRecOn with
  | nil => exact List.nodup_nil
  | append_singleton entries e ih =>
    rw [ofEntries_concat]
    exact nodup_keys_insert ih _ _

end Dict

/-! ### Calls -/

/-- A call of a builder of schemas. -/
inductive SchemaDraft.Call where
  | root (operation : OperationKind) (name : String)
  | type (definition : TypeDef)
  | directive (definition : DirectiveDef)

namespace SchemaDraft

namespace Call

/-- The root type that a call names for an operation. -/
def rootName? (operation : OperationKind) : Call → Option String
  | root named name => if named = operation then some name else none
  | _ => none

/-- The type that a call defines. -/
def type? : Call → Option TypeDef
  | type definition => some definition
  | _ => none

end Call

/-- What a call does to a draft. -/
def after (d : SchemaDraft) : Call → SchemaDraft
  | .root .query name => { d with query := some name }
  | .root .mutation name => { d with mutation := some name }
  | .root .subscription name => { d with subscription := some name }
  | .type definition => d.addType definition
  | .directive definition => d.addDirective definition

/-- The draft that calls make. -/
def ofCalls (calls : List Call) : SchemaDraft := calls.foldl after {}

/-- The name of the root type of an operation. -/
def rootName? (d : SchemaDraft) : OperationKind → Option String
  | .query => d.query
  | .mutation => d.mutation
  | .subscription => d.subscription

/-- The name last given to the root of an operation. -/
def givenRoot? (calls : List Call) (operation : OperationKind) : Option String :=
  (calls.filterMap (Call.rootName? operation)).getLast?

/-- All definitions in their order, the built-in scalars first. -/
def given (calls : List Call) : List TypeDef := ScalarDef.builtin.map .scalar ++ calls.filterMap Call.type?

/-- The names of all types, each where it was first defined. -/
def givenNames (calls : List Call) : List String := ((given calls).map TypeDef.name).eraseDups

/-- The definition of a type that counts: the last one. -/
def given? (calls : List Call) (name : String) : Option TypeDef :=
  ((given calls).filter (·.name = name)).getLast?

/-- The kind of a type by the definition that counts. -/
def givenKind? (calls : List Call) (name : String) : Option TypeKind := (given? calls name).map TypeDef.kind

theorem ofCalls_concat (calls : List Call) (c : Call) : ofCalls (calls ++ [c]) = (ofCalls calls).after c := by
  unfold ofCalls
  rw [List.foldl_append]
  rfl

theorem rootName?_ofCalls (calls : List Call) (operation : OperationKind) :
    (ofCalls calls).rootName? operation = givenRoot? calls operation := by
  induction calls using List.reverseRecOn with
  | nil => cases operation <;> rfl
  | append_singleton calls c ih =>
    rw [ofCalls_concat, givenRoot?, List.filterMap_append]
    cases c with
    | root named name =>
      by_cases hnamed : named = operation
      · have hlast : [Call.root named name].filterMap (Call.rootName? operation) = [name] := by
          simp [Call.rootName?, hnamed]
        rw [hlast, List.getLast?_concat, hnamed]
        cases operation <;> rfl
      · have hlast : [Call.root named name].filterMap (Call.rootName? operation) = [] := by
          simp [Call.rootName?, hnamed]
        rw [hlast, List.append_nil]
        refine Eq.trans ?_ ih
        cases named <;> cases operation <;> first | exact absurd rfl hnamed | rfl
    | type definition => exact (ih.trans (by rw [givenRoot?]; simp [Call.rootName?])).trans rfl
    | directive definition => exact (ih.trans (by rw [givenRoot?]; simp [Call.rootName?])).trans rfl

/-- The types of a draft, from the definitions alone. -/
theorem types_ofCalls (calls : List Call) :
    (ofCalls calls).types = Dict.ofEntries ((given calls).map fun t => (t.name, t)) := by
  induction calls using List.reverseRecOn with
  | nil => rfl
  | append_singleton calls c ih =>
    rw [ofCalls_concat]
    cases c with
    | root operation name =>
      have hgiven : given (calls ++ [.root operation name]) = given calls := by simp [given, Call.type?]
      rw [hgiven, ← ih]
      cases operation <;> rfl
    | type definition =>
      have hgiven : given (calls ++ [.type definition]) = given calls ++ [definition] := by simp [given, Call.type?]
      rw [hgiven, List.map_append, List.map_singleton, Dict.ofEntries_concat, ← ih]
      rfl
    | directive definition =>
      have hgiven : given (calls ++ [.directive definition]) = given calls := by simp [given, Call.type?]
      rw [hgiven, ← ih]
      rfl

theorem keys_types_ofCalls (calls : List Call) : Dict.keys (ofCalls calls).types = givenNames calls := by
  rw [types_ofCalls, Dict.keys_ofEntries, List.map_map]
  rfl

theorem get?_types_ofCalls (calls : List Call) (name : String) :
    Dict.get? (ofCalls calls).types name = given? calls name := by
  rw [types_ofCalls, Dict.get?_ofEntries, List.filter_map, List.getLast?_map, Option.map_map]
  exact Option.map_id'

/-- The types that are checked are those that count, in the order of their names. -/
theorem values_types_ofCalls (calls : List Call) :
    Dict.values (ofCalls calls).types = (givenNames calls).filterMap (given? calls) := by
  have hnodup : (Dict.keys (ofCalls calls).types).Nodup := by
    rw [types_ofCalls]
    exact Dict.nodup_keys_ofEntries _
  rw [Dict.values_eq_filterMap hnodup, keys_types_ofCalls, funext (get?_types_ofCalls calls)]

end SchemaDraft

/-! ### References -/

/-- A name that leads to a type, the kinds of types that may stand there, and what is said if there is no type or one
of another kind. -/
structure Reference where
  name : String
  admits : TypeKind → Bool
  unknown : SchemaError
  misplaced : SchemaError

namespace Reference

/-- What is wrong with a reference, given the kinds of the types. -/
def fault? (kind? : String → Option TypeKind) (r : Reference) : Option SchemaError :=
  match kind? r.name with
  | none => some r.unknown
  | some kind => if r.admits kind then none else some r.misplaced

/-- The faults of several references. -/
def faults (kind? : String → Option TypeKind) (rs : List Reference) : List SchemaError := rs.filterMap (fault? kind?)

/-- The root of an operation has to be an object. -/
def root (operation : OperationKind) (name : String) : Reference :=
  ⟨name, (· = .object), .invalidRootType operation name, .invalidRootType operation name⟩

/-- The field at a coordinate has to have an output type. -/
def output (coordinate : String) (type : TypeRef) : Reference :=
  ⟨type.innermost, TypeKind.isOutput, .unknownType type.innermost coordinate, .invalidOutputType coordinate type⟩

/-- The argument or input field at a coordinate has to have an input type. -/
def input (coordinate : String) (type : TypeRef) : Reference :=
  ⟨type.innermost, TypeKind.isInput, .unknownType type.innermost coordinate, .invalidInputType coordinate type⟩

/-- What a type implements has to be an interface. -/
def interface (owner name : String) : Reference :=
  ⟨name, (· = .interface), .unknownType name owner, .invalidInterface owner name⟩

/-- The references of the roots, in the order of the operations. -/
def roots (root? : OperationKind → Option String) : List Reference :=
  [OperationKind.query, .mutation, .subscription].filterMap fun operation => (root? operation).map (root operation)

/-- The members of a union have to be objects. -/
def member (union name : String) : Reference :=
  ⟨name, (· = .object), .unknownType name union, .invalidUnionMember union name⟩

end Reference

/-- The references of a field: that of its own type, then those of its arguments. -/
def FieldDef.references (owner : String) (d : FieldDef) : List Reference :=
  .output (owner ++ "." ++ d.name) d.type ::
    (Dict.values d.arguments).map fun a => .input (owner ++ "." ++ d.name ++ "(" ++ a.name ++ ":)") a.type

/-- The references of an object or interface: those of its fields, then the interfaces that it implements. -/
def CompositeDef.references (d : CompositeDef) : List Reference :=
  (Dict.values d.fields).flatMap (FieldDef.references d.name) ++ d.implements.map (.interface d.name)

/-- The references of a type in their order. -/
def TypeDef.references : TypeDef → List Reference
  | object d => d.references
  | interface d => d.references
  | union d => d.members.map (.member d.name)
  | inputObject d => (Dict.values d.fields).map fun f => .input (d.name ++ "." ++ f.name) f.type
  | scalar _ => []
  | enum _ => []

namespace SchemaDraft

/-- The references of all types, after those of the roots. -/
def references (calls : List Call) : List Reference :=
  Reference.roots (givenRoot? calls) ++ ((givenNames calls).filterMap (given? calls)).flatMap TypeDef.references

/-- Everything that is wrong with what the calls say, in order. -/
def faults (calls : List Call) : List SchemaError :=
  (if givenRoot? calls .query = none then [.missingQueryType] else []) ++
    Reference.faults (givenKind? calls) (references calls)

/-- There is a query root, and every type that is named somewhere exists and is of a kind that may stand there. -/
structure WellFormed (calls : List Call) : Prop where
  query : (givenRoot? calls .query).isSome
  roots : ∀ operation name, givenRoot? calls operation = some name → givenKind? calls name = some .object
  fields : ∀ name d, given? calls name = some (.object d) ∨ given? calls name = some (.interface d) →
    ∀ field ∈ Dict.values d.fields, ∃ kind, givenKind? calls field.type.innermost = some kind ∧ kind.isOutput
  arguments : ∀ name d, given? calls name = some (.object d) ∨ given? calls name = some (.interface d) →
    ∀ field ∈ Dict.values d.fields, ∀ argument ∈ Dict.values field.arguments,
      ∃ kind, givenKind? calls argument.type.innermost = some kind ∧ kind.isInput
  interfaces : ∀ name d, given? calls name = some (.object d) ∨ given? calls name = some (.interface d) →
    ∀ interface ∈ d.implements, givenKind? calls interface = some .interface
  members : ∀ name d, given? calls name = some (.union d) → ∀ member ∈ d.members, givenKind? calls member = some .object
  inputFields : ∀ name d, given? calls name = some (.inputObject d) →
    ∀ field ∈ Dict.values d.fields, ∃ kind, givenKind? calls field.type.innermost = some kind ∧ kind.isInput

end SchemaDraft

/-! ### Checks -/

/-- The outcome of a check that stops at the first fault. -/
def SchemaError.first : List SchemaError → Except SchemaError Unit
  | [] => .ok ()
  | e :: _ => .error e

namespace SchemaError

theorem first_append (xs ys : List SchemaError) : first (xs ++ ys) = (first xs >>= fun _ => first ys) := by
  cases xs <;> rfl

/-- One check after the other finds the first of all faults. -/
theorem first_flatMap {α : Type} {check : α → Except SchemaError PUnit} {found : α → List SchemaError}
    (xs : List α) (h : ∀ x ∈ xs, check x = first (found x)) : xs.forM check = first (xs.flatMap found) := by
  induction xs with
  | nil => rfl
  | cons x xs ih =>
    rw [List.flatMap_cons, first_append, ← h x List.mem_cons_self,
      ← ih fun y hy => h y (List.mem_cons_of_mem x hy)]
    rfl

end SchemaError

namespace Reference

variable {kind? : String → Option TypeKind}

theorem faults_append (rs rs' : List Reference) : faults kind? (rs ++ rs') = faults kind? rs ++ faults kind? rs' :=
  List.filterMap_append

theorem faults_cons (r : Reference) (rs : List Reference) : faults kind? (r :: rs) = faults kind? [r] ++ faults kind? rs :=
  faults_append [r] rs

theorem faults_flatMap {α : Type} (f : α → List Reference) (xs : List α) :
    faults kind? (xs.flatMap f) = xs.flatMap fun x => faults kind? (f x) :=
  List.filterMap_flatMap ..

theorem faults_map {α : Type} (f : α → Reference) (xs : List α) :
    faults kind? (xs.map f) = xs.flatMap fun x => faults kind? [f x] := by
  rw [← faults_flatMap, List.map_eq_flatMap]

/-- A reference leads to a type of a kind that may stand there. -/
def Met (kind? : String → Option TypeKind) (r : Reference) : Prop :=
  ∃ kind, kind? r.name = some kind ∧ r.admits kind = true

theorem faults_eq_nil {rs : List Reference} : faults kind? rs = [] ↔ ∀ r ∈ rs, r.Met kind? := by
  unfold faults
  rw [List.filterMap_eq_nil_iff]
  refine forall₂_congr fun r _ => ?_
  unfold fault? Met
  cases kind? r.name with
  | none => simp
  | some kind => simp

/-- A reference for which only one kind will do. -/
theorem met_of_kind {r : Reference} {kind : TypeKind} (h : r.admits = (· = kind)) :
    r.Met kind? ↔ kind? r.name = some kind := by
  unfold Met
  rw [h]
  simp

/-- The references of roots that are met. -/
theorem met_roots {root? : OperationKind → Option String} :
    (∀ r ∈ roots root?, r.Met kind?) ↔ ∀ operation name, root? operation = some name → kind? name = some .object := by
  unfold roots
  constructor
  · intro h operation name hname
    have hmem : root operation name ∈ [OperationKind.query, .mutation, .subscription].filterMap fun operation =>
        (root? operation).map (root operation) :=
      List.mem_filterMap.2 ⟨operation, by cases operation <;> simp, by rw [hname]; rfl⟩
    exact (met_of_kind rfl).1 (h _ hmem)
  · intro h r hr
    obtain ⟨operation, -, hmap⟩ := List.mem_filterMap.1 hr
    obtain ⟨name, hname, rfl⟩ := Option.map_eq_some_iff.1 hmap
    exact (met_of_kind rfl).2 (h operation name hname)

/-- The references of an object or interface that are met. -/
theorem met_composite {d : CompositeDef} :
    (∀ r ∈ d.references, r.Met kind?) ↔
      (∀ field ∈ Dict.values d.fields, (∃ kind, kind? field.type.innermost = some kind ∧ kind.isOutput) ∧
        ∀ argument ∈ Dict.values field.arguments,
          ∃ kind, kind? argument.type.innermost = some kind ∧ kind.isInput) ∧
      ∀ name ∈ d.implements, kind? name = some .interface := by
  unfold CompositeDef.references
  rw [List.forall_mem_append, List.forall_mem_flatMap, List.forall_mem_map]
  refine and_congr (forall₂_congr fun field _ => ?_) (forall₂_congr fun name _ => met_of_kind rfl)
  unfold FieldDef.references
  rw [List.forall_mem_cons, List.forall_mem_map]
  rfl

end Reference

namespace SchemaDraft

variable (d : SchemaDraft)

/-- The kind of a type of a draft. -/
def kind? (name : String) : Option TypeKind := (Dict.get? d.types name).map TypeDef.kind

/-- The outcome of a check of one reference. -/
theorem first_single (r : Reference) :
    SchemaError.first (Reference.faults d.kind? [r]) =
      match Dict.get? d.types r.name with
      | none => .error r.unknown
      | some type => if r.admits type.kind then .ok ⟨⟩ else .error r.misplaced := by
  have hfault : Reference.faults d.kind? [r] = (r.fault? d.kind?).toList := by
    unfold Reference.faults
    cases h : r.fault? d.kind? with
    | none => rw [List.filterMap_cons_none h]; rfl
    | some e => rw [List.filterMap_cons_some h]; rfl
  rw [hfault]
  unfold Reference.fault? kind?
  cases Dict.get? d.types r.name with
  | none => rfl
  | some type =>
    dsimp only [Option.map_some]
    cases r.admits type.kind <;> rfl

theorem checkInput_eq (coordinate : String) (type : TypeRef) :
    d.checkInput coordinate type = SchemaError.first (Reference.faults d.kind? [.input coordinate type]) := by
  rw [first_single]
  unfold checkInput lookup
  dsimp only [Reference.input]
  cases Dict.get? d.types type.innermost with
  | none => rfl
  | some found => rfl

theorem checkField_eq (owner : String) (field : FieldDef) :
    d.checkField owner field = SchemaError.first (Reference.faults d.kind? (field.references owner)) := by
  have harguments := SchemaError.first_flatMap (Dict.values field.arguments) fun a _ =>
    d.checkInput_eq (owner ++ "." ++ field.name ++ "(" ++ a.name ++ ":)") a.type
  rw [FieldDef.references, Reference.faults_cons, SchemaError.first_append, Reference.faults_map, ← harguments,
    first_single]
  unfold checkField lookup
  dsimp only [Reference.output]
  cases Dict.get? d.types field.type.innermost with
  | none => rfl
  | some found =>
    cases hkind : found.kind.isOutput with
    | false => simp [bind, Except.bind, hkind]; rfl
    | true => simp [bind, Except.bind, hkind]

/-- The check of a list of names, each of which has to lead to a type of one kind. -/
theorem forM_lookup_eq (names : List String) (reference : String → Reference) (kind : TypeKind) (owner : String)
    (hname : ∀ name ∈ names, (reference name).name = name ∧ (reference name).unknown = .unknownType name owner ∧
      (reference name).admits = (· = kind)) :
    (names.forM fun name => do
      let found ← d.lookup name owner
      if found ≠ kind then throw (reference name).misplaced) =
      SchemaError.first (Reference.faults d.kind? (names.map reference)) := by
  rw [Reference.faults_map]
  refine SchemaError.first_flatMap _ fun name hmem => ?_
  obtain ⟨hname, hunknown, hadmits⟩ := hname name hmem
  rw [first_single, hname, hunknown, hadmits]
  unfold lookup
  cases Dict.get? d.types name with
  | none => rfl
  | some found => by_cases hkind : found.kind = kind <;> simp [bind, Except.bind, hkind] <;> rfl

theorem checkComposite_eq (type : CompositeDef) :
    d.checkComposite type = SchemaError.first (Reference.faults d.kind? type.references) := by
  have hfields := SchemaError.first_flatMap (Dict.values type.fields) fun f _ => d.checkField_eq type.name f
  have hinterfaces := d.forM_lookup_eq type.implements (.interface type.name) .interface type.name fun _ _ =>
    ⟨rfl, rfl, rfl⟩
  rw [CompositeDef.references, Reference.faults_append, SchemaError.first_append, Reference.faults_flatMap, ← hfields,
    ← hinterfaces]
  rfl

theorem checkType_eq (type : TypeDef) :
    d.checkType type = SchemaError.first (Reference.faults d.kind? type.references) := by
  cases type with
  | object type => exact d.checkComposite_eq type
  | interface type => exact d.checkComposite_eq type
  | union type => exact d.forM_lookup_eq type.members (.member type.name) .object type.name fun _ _ => ⟨rfl, rfl, rfl⟩
  | inputObject type =>
    have hfields := SchemaError.first_flatMap (Dict.values type.fields) fun f _ =>
      d.checkInput_eq (type.name ++ "." ++ f.name) f.type
    exact hfields.trans (by rw [← Reference.faults_map]; rfl)
  | scalar type => rfl
  | enum type => rfl

theorem checkRoot_eq (operation : OperationKind) (root : Option String) :
    d.checkRoot operation root =
      SchemaError.first (Reference.faults d.kind? (root.map (Reference.root operation)).toList) := by
  cases root with
  | none => rfl
  | some name =>
    have hfirst := d.first_single (.root operation name)
    refine Eq.trans ?_ hfirst.symm
    unfold checkRoot
    dsimp only [Reference.root]
    cases Dict.get? d.types name with
    | none => rfl
    | some found => by_cases hkind : found.kind = .object <;> simp [hkind]

/-- A draft is built unless it has a fault, and the first fault is the error. -/
theorem build_eq :
    d.build =
      match d.query, SchemaError.first (Reference.faults d.kind?
        (Reference.roots d.rootName? ++ (Dict.values d.types).flatMap TypeDef.references)) with
      | none, _ => .error .missingQueryType
      | some _, .error e => .error e
      | some query, .ok _ => .ok ⟨query, d.mutation, d.subscription, d.types, d.directives⟩ := by
  have htypes := SchemaError.first_flatMap (Dict.values d.types) fun t _ => d.checkType_eq t
  unfold build
  cases hquery : d.query with
  | none => rfl
  | some query =>
    have hroots : Reference.roots d.rootName? = ((some query).map (.root .query)).toList ++
        ((d.mutation.map (.root .mutation)).toList ++ (d.subscription.map (.root .subscription)).toList) := by
      unfold Reference.roots
      rw [List.filterMap_eq_flatMap_toList]
      simp [rootName?, hquery]
    rw [hroots]
    simp only [List.append_assoc, Reference.faults_append, SchemaError.first_append, Reference.faults_flatMap,
      ← checkRoot_eq, ← htypes]
    dsimp only [bind, Except.bind, pure, Except.pure]
    cases d.checkRoot .query (some query) with
    | error e => rfl
    | ok _ =>
      cases d.checkRoot .mutation d.mutation with
      | error e => rfl
      | ok _ =>
        cases d.checkRoot .subscription d.subscription with
        | error e => rfl
        | ok _ =>
          cases (Dict.values d.types).forM d.checkType with
          | error e => rfl
          | ok _ => rfl

theorem kind?_ofCalls (calls : List Call) : (ofCalls calls).kind? = givenKind? calls := by
  funext name
  unfold kind? givenKind?
  rw [get?_types_ofCalls]

/-- The outcome of building is read off the calls. -/
theorem build_ofCalls_eq (calls : List Call) :
    (∀ e, (ofCalls calls).build = .error e ↔ (faults calls).head? = some e) ∧
      ((∃ s, (ofCalls calls).build = .ok s) ↔ faults calls = []) := by
  have hquery : (ofCalls calls).query = givenRoot? calls .query := rootName?_ofCalls calls .query
  have hreferences : Reference.roots (ofCalls calls).rootName? ++ (Dict.values (ofCalls calls).types).flatMap TypeDef.references =
      references calls := by
    rw [values_types_ofCalls, funext (rootName?_ofCalls calls)]
    rfl
  rw [build_eq, hquery, hreferences, kind?_ofCalls, faults]
  cases givenRoot? calls .query with
  | none => simp
  | some query =>
    cases Reference.faults (givenKind? calls) (references calls) with
    | nil => simp [SchemaError.first]
    | cons e rest => simp [SchemaError.first]

/-- The types that count are those that are found. -/
theorem mem_types_iff {calls : List Call} {type : TypeDef} :
    type ∈ (givenNames calls).filterMap (given? calls) ↔ ∃ name, given? calls name = some type := by
  rw [List.mem_filterMap]
  refine ⟨fun ⟨name, _, hname⟩ => ⟨name, hname⟩, fun ⟨name, hname⟩ => ⟨name, ?_, hname⟩⟩
  rw [← get?_types_ofCalls] at hname
  rw [← keys_types_ofCalls]
  exact List.mem_map.2 ⟨_, Dict.mem_of_get? hname, rfl⟩

/-- There are no faults exactly if everything that is named is there and of a kind that may stand there. -/
theorem faults_eq_nil_iff (calls : List Call) : faults calls = [] ↔ WellFormed calls := by
  have htypes : (∀ r ∈ ((givenNames calls).filterMap (given? calls)).flatMap TypeDef.references,
      r.Met (givenKind? calls)) ↔ ∀ name type, given? calls name = some type →
        ∀ r ∈ type.references, r.Met (givenKind? calls) := by
    rw [List.forall_mem_flatMap]
    exact ⟨fun h name type htype => h type (mem_types_iff.2 ⟨name, htype⟩),
      fun h type htype => (mem_types_iff.1 htype).elim fun name hname => h name type hname⟩
  have hquery : (if givenRoot? calls .query = none then [SchemaError.missingQueryType] else []) = [] ↔
      (givenRoot? calls .query).isSome := by
    cases givenRoot? calls .query <;> simp
  unfold faults references
  rw [List.append_eq_nil_iff, Reference.faults_eq_nil, List.forall_mem_append, Reference.met_roots, htypes, hquery]
  constructor
  · rintro ⟨hquery, hroots, htypes⟩
    have hcomposite : ∀ name d, given? calls name = some (.object d) ∨ given? calls name = some (.interface d) →
        ∀ r ∈ d.references, r.Met (givenKind? calls) :=
      fun name d h => h.elim (htypes name _) (htypes name _)
    exact {
      query := hquery
      roots := hroots
      fields := fun name d h field hfield => ((Reference.met_composite.1 (hcomposite name d h)).1 field hfield).1
      arguments := fun name d h field hfield => ((Reference.met_composite.1 (hcomposite name d h)).1 field hfield).2
      interfaces := fun name d h => (Reference.met_composite.1 (hcomposite name d h)).2
      members := fun name d h member hmember =>
        (Reference.met_of_kind rfl).1 (List.forall_mem_map.1 (htypes name _ h) member hmember)
      inputFields := fun name d h field hfield => List.forall_mem_map.1 (htypes name _ h) field hfield }
  · intro h
    refine ⟨h.query, h.roots, fun name type htype => ?_⟩
    have hcomposite : ∀ d, type = .object d ∨ type = .interface d → ∀ r ∈ d.references, r.Met (givenKind? calls) := by
      intro d hd
      have hgiven : given? calls name = some (.object d) ∨ given? calls name = some (.interface d) :=
        hd.imp (fun heq : type = .object d => heq ▸ htype) fun heq : type = .interface d => heq ▸ htype
      exact Reference.met_composite.2 ⟨fun field hfield =>
        ⟨h.fields name d hgiven field hfield, h.arguments name d hgiven field hfield⟩, h.interfaces name d hgiven⟩
    cases type with
    | object d => exact hcomposite d (.inl rfl)
    | interface d => exact hcomposite d (.inr rfl)
    | union d =>
      exact List.forall_mem_map.2 fun member hmember => (Reference.met_of_kind rfl).2 (h.members name d htype member hmember)
    | inputObject d => exact List.forall_mem_map.2 fun field hfield => h.inputFields name d htype field hfield
    | scalar _ => exact List.forall_mem_nil _
    | enum _ => exact List.forall_mem_nil _

/-- **What can be built.**  Whatever is called, the draft can be built exactly if it is well-formed, and if it is not, the
error is that of the first fault in the order of the draft: no query root, the roots, and the types where their names were
first defined.  The schema has the roots last named and the types last defined. -/
theorem build_ofCalls (calls : List Call) :
    ((∃ s, (ofCalls calls).build = .ok s) ↔ WellFormed calls) ∧
      (∀ e, (ofCalls calls).build = .error e ↔ (faults calls).head? = some e) ∧
      ∀ s, (ofCalls calls).build = .ok s →
        (∀ operation, s.rootName? operation = givenRoot? calls operation) ∧
        Dict.keys s.types = givenNames calls ∧
        (∀ name, Dict.get? s.types name = given? calls name) ∧
        ∀ name, s.typeKind? name = givenKind? calls name := by
  refine ⟨(build_ofCalls_eq calls).2.trans (faults_eq_nil_iff calls), (build_ofCalls_eq calls).1, fun s hs => ?_⟩
  obtain ⟨query, hquery, rfl⟩ := eq_of_build hs
  refine ⟨fun operation => ?_, keys_types_ofCalls calls, get?_types_ofCalls calls, congrFun (kind?_ofCalls calls)⟩
  rw [← rootName?_ofCalls]
  cases operation with
  | query => exact hquery.symm
  | mutation => rfl
  | subscription => rfl

/-- A type that is replaced before the draft is built: its first definition could not stand. -/
theorem build_replaced :
    ∃ s, (ofCalls [.type (.ofFields "Query" [("a", .named "Missing")]), .root .query "Query",
        .type (.ofFields "Query" [("a", .list (.named "ID"))])]).build = .ok s ∧
      Dict.keys s.types = ["Int", "Float", "String", "Boolean", "ID", "Query"] ∧ s.typeKind? "Query" = some .object := by
  obtain ⟨s, hs⟩ : ∃ s, (ofCalls [.type (.ofFields "Query" [("a", .named "Missing")]), .root .query "Query",
      .type (.ofFields "Query" [("a", .list (.named "ID"))])]).build = .ok s := ⟨_, rfl⟩
  obtain ⟨-, hkeys, -, hkind⟩ := (build_ofCalls _).2.2 s hs
  exact ⟨s, hs, hkeys.trans (by decide), (hkind "Query").trans (by decide)⟩

/-- Roots may be named at any time. -/
theorem Drafted.after_root {d : SchemaDraft} (h : d.Drafted) (operation : OperationKind) (name : String) :
    (d.after (.root operation name)).Drafted := by
  induction h with
  | start query mutation subscription => cases operation <;> exact .start _ _ _
  | addType _ htype ih => cases operation <;> exact .addType ih htype
  | addDirective _ directive ih => cases operation <;> exact .addDirective ih directive

/-- What is built from calls is a built schema, if the fields of its input objects are found under their own names. -/
theorem built_of_ofCalls {calls : List Call} (hkeyed : ∀ type ∈ calls.filterMap Call.type?, type.Keyed) {s : Schema}
    (hs : (ofCalls calls).build = .ok s) : s.Built := by
  refine ⟨ofCalls calls, ?_, hs⟩
  clear hs
  induction calls using List.reverseRecOn with
  | nil => exact .start none none none
  | append_singleton calls c ih =>
    rw [List.filterMap_append, List.forall_mem_append] at hkeyed
    rw [ofCalls_concat]
    cases c with
    | root operation name => exact (ih hkeyed.1).after_root operation name
    | type definition => exact .addType (ih hkeyed.1) (hkeyed.2 definition (by simp [Call.type?]))
    | directive definition => exact .addDirective (ih hkeyed.1) definition

/-! ### What a built schema refers to -/

/-- All references of a schema that was built are met. -/
theorem met_of_build {d : SchemaDraft} {s : Schema} (h : d.build = .ok s) :
    (∀ r ∈ Reference.roots s.rootName?, r.Met s.typeKind?) ∧
      ∀ type ∈ Dict.values s.types, ∀ r ∈ type.references, r.Met s.typeKind? := by
  rw [build_eq] at h
  cases hquery : d.query with
  | none =>
    rw [hquery] at h
    exact absurd h (by simp)
  | some query =>
    rw [hquery] at h
    cases hfaults : Reference.faults d.kind?
        (Reference.roots d.rootName? ++ (Dict.values d.types).flatMap TypeDef.references) with
    | cons e rest =>
      rw [hfaults] at h
      exact absurd h (by simp [SchemaError.first])
    | nil =>
      rw [hfaults] at h
      obtain rfl := Except.ok.inj h
      have hroots : d.rootName? = Schema.rootName? ⟨query, d.mutation, d.subscription, d.types, d.directives⟩ := by
        funext operation
        cases operation with
        | query => exact hquery
        | mutation => rfl
        | subscription => rfl
      have hmet := Reference.faults_eq_nil.1 hfaults
      rw [List.forall_mem_append, List.forall_mem_flatMap, hroots] at hmet
      exact hmet

/-- The root types of a built schema are objects. -/
theorem typeKind?_rootName? {d : SchemaDraft} {s : Schema} (h : d.build = .ok s) {operation : OperationKind} {name : String}
    (hname : s.rootName? operation = some name) : s.typeKind? name = some .object :=
  Reference.met_roots.1 (met_of_build h).1 operation name hname

/-- The fields of a built schema have output types, but for the name of a type, which is not checked. -/
theorem isOutput_field? {d : SchemaDraft} {s : Schema} (h : d.build = .ok s) {parent name : String} {field : FieldDef}
    (hfield : s.field? parent name = some field) (hname : name ≠ "__typename") :
    (s.typeKind? field.type.innermost).any TypeKind.isOutput = true := by
  unfold Schema.field? at hfield
  rw [if_neg hname] at hfield
  have hcomposite : ∀ type : CompositeDef, (∀ r ∈ type.references, r.Met s.typeKind?) →
      Dict.get? type.fields name = some field → (s.typeKind? field.type.innermost).any TypeKind.isOutput = true := by
    intro type hmet hget
    have hmem : field ∈ Dict.values type.fields := List.mem_map.2 ⟨_, Dict.mem_of_get? hget, rfl⟩
    obtain ⟨kind, hkind, hout⟩ := ((Reference.met_composite.1 hmet).1 field hmem).1
    rw [hkind]
    exact hout
  have hmet : ∀ type, Dict.get? s.types parent = some type → ∀ r ∈ type.references, r.Met s.typeKind? :=
    fun type htype => (met_of_build h).2 type (List.mem_map.2 ⟨_, Dict.mem_of_get? htype, rfl⟩)
  split at hfield
  · rename_i type htype
    exact hcomposite type (hmet (.object type) htype) hfield
  · rename_i type htype
    exact hcomposite type (hmet (.interface type) htype) hfield
  · exact absurd hfield (by simp)

/-- The name of a built-in scalar is that of a type in every draft, if only of one that took its place. -/
theorem isSome_get?_builtin (calls : List Call) {name : String} (h : name ∈ ScalarDef.builtin.map ScalarDef.name) :
    (Dict.get? (ofCalls calls).types name).isSome = true := by
  have hmem : name ∈ Dict.keys (ofCalls calls).types := by
    rw [keys_types_ofCalls, givenNames, List.mem_eraseDups, given, List.map_append, List.map_map]
    exact List.mem_append_left _ h
  exact Dict.contains_iff.2 hmem

end SchemaDraft

end GraphQL
