import GraphQL.Schema.TypeDef

/-!
# Schemas

A schema names its root types and holds all types and directives.  `SchemaDraft` collects them in any order, and
`SchemaDraft.build` accepts a draft exactly if every reference in it leads to a type of the right kind; of several
faults it names the first in the order of the draft.
-/

namespace GraphQL

/-- The types and directives of a service. -/
structure Schema where
  query : String
  mutation : Option String
  subscription : Option String
  types : Dict TypeDef
  directives : Dict DirectiveDef

/-- Why a draft is no schema. -/
inductive SchemaError where
  | missingQueryType
  | invalidRootType (operation : OperationKind) (name : String)
  | unknownType (name referencedBy : String)
  | invalidUnionMember (union member : String)
  | invalidInterface (object interface : String)
  | invalidOutputType (field : String) (type : TypeRef)
  | invalidInputType (field : String) (type : TypeRef)
  | invalidTypeRef (text : String)
deriving DecidableEq, Repr

namespace SchemaError

/-- The sentence for a fault. -/
def message : SchemaError → String
  | missingQueryType => "Query root type must be provided."
  | invalidRootType operation name =>
    operation.text ++ " root type \"" ++ name ++ "\" must be an Object type."
  | unknownType name referencedBy =>
    "Unknown type \"" ++ name ++ "\" referenced by \"" ++ referencedBy ++ "\"."
  | invalidUnionMember union member =>
    "Union \"" ++ union ++ "\" can only include Object types, it cannot include \"" ++ member ++ "\"."
  | invalidInterface object interface =>
    "Type \"" ++ object ++ "\" must only implement Interface types, it cannot implement \"" ++
      interface ++ "\"."
  | invalidOutputType field type =>
    "The type of \"" ++ field ++ "\" must be Output Type but got: \"" ++ type.text ++ "\"."
  | invalidInputType field type =>
    "The type of \"" ++ field ++ "\" must be Input Type but got: \"" ++ type.text ++ "\"."
  | invalidTypeRef text => "Invalid type reference \"" ++ text ++ "\"."

end SchemaError

namespace TypeRef

/-- Reads a type reference or says which text is none. -/
def read (text : String) : Except SchemaError TypeRef :=
  match read? text with
  | some type => .ok type
  | none => .error (.invalidTypeRef text)

end TypeRef

namespace FieldDef

/-- The field that every object has: the name of its type. -/
def typename : FieldDef where
  name := "__typename"
  type := .nonNull (.named "String")

end FieldDef

namespace Schema

/-- The kind of the type with a name. -/
def typeKind? (s : Schema) (name : String) : Option TypeKind :=
  (Dict.get? s.types name).map TypeDef.kind

/-- The object type with a name. -/
def object? (s : Schema) (name : String) : Option CompositeDef :=
  match Dict.get? s.types name with
  | some (.object d) => some d
  | _ => none

/-- The name of the root type of an operation. -/
def rootName? (s : Schema) : OperationKind → Option String
  | .query => some s.query
  | .mutation => s.mutation
  | .subscription => s.subscription

/-- The root type of an operation. -/
def root? (s : Schema) (kind : OperationKind) : Option CompositeDef :=
  (s.rootName? kind).bind s.object?

/-- A field of an object or interface; every type has the field with its name. -/
def field? (s : Schema) (parentType fieldName : String) : Option FieldDef :=
  if fieldName = "__typename" then some .typename
  else
    match Dict.get? s.types parentType with
    | some (.object d) | some (.interface d) => Dict.get? d.fields fieldName
    | _ => none

/-- What one type contributes to the possible types of an abstract one: the members of the union with the name, or
the object itself for every time that it names the interface. -/
def possibleTypesFrom (abstractType : String) : TypeDef → List String
  | .union d => if d.name = abstractType then d.members else []
  | .object d => (d.implements.filter (· = abstractType)).map fun _ => d.name
  | _ => []

/-- The object types of an abstract type, in the order of the types of the schema. -/
def possibleTypes (s : Schema) (abstractType : String) : List String :=
  (Dict.values s.types).flatMap (possibleTypesFrom abstractType)

/-- Whether a value of one type is one of another: the same type, a member of a union, or a type that names an
interface. -/
def isSubType (s : Schema) (superType subType : String) : Bool :=
  superType = subType ||
    match Dict.get? s.types superType with
    | some (.union d) => d.members.contains subType
    | some (.interface _) =>
      match Dict.get? s.types subType with
      | some (.object d) | some (.interface d) => d.implements.contains superType
      | _ => false
    | _ => false

/-- The directive with a name. -/
def directive? (s : Schema) (name : String) : Option DirectiveDef := Dict.get? s.directives name

/-- Turns the value of a resolver into that of a response by the leaf type with a name. -/
def serializeLeaf (s : Schema) (typeName : String) (value : Json) : Except LeafError Json :=
  match Dict.get? s.types typeName with
  | some (.scalar d) => d.serialize value
  | some (.enum d) => d.serialize value
  | _ => .error (.notLeafType typeName)

end Schema

/-- A schema in the making. -/
structure SchemaDraft where
  query : Option String := none
  mutation : Option String := none
  subscription : Option String := none
  types : Dict TypeDef := ScalarDef.builtin.map fun d => (d.name, .scalar d)
  directives : Dict DirectiveDef := DirectiveDef.builtin.map fun d => (d.name, d)

namespace SchemaDraft

/-- Adds a type; one of the same name is replaced. -/
def addType (d : SchemaDraft) (type : TypeDef) : SchemaDraft :=
  { d with types := Dict.insert d.types type.name type }

/-- Adds a directive; one of the same name is replaced. -/
def addDirective (d : SchemaDraft) (directive : DirectiveDef) : SchemaDraft :=
  { d with directives := Dict.insert d.directives directive.name directive }

/-- The kind of a type that is referred to. -/
def lookup (d : SchemaDraft) (name referencedBy : String) : Except SchemaError TypeKind :=
  match Dict.get? d.types name with
  | some type => .ok type.kind
  | none => .error (.unknownType name referencedBy)

/-- An argument or input field needs an input type. -/
def checkInput (d : SchemaDraft) (coordinate : String) (type : TypeRef) : Except SchemaError Unit := do
  let kind ← d.lookup type.innermost coordinate
  if kind.isInput then return () else throw (.invalidInputType coordinate type)

/-- A field needs an output type, and its arguments input types. -/
def checkField (d : SchemaDraft) (owner : String) (field : FieldDef) : Except SchemaError Unit := do
  let coordinate := owner ++ "." ++ field.name
  let kind ← d.lookup field.type.innermost coordinate
  if !kind.isOutput then throw (.invalidOutputType coordinate field.type)
  (Dict.values field.arguments).forM fun a =>
    d.checkInput (coordinate ++ "(" ++ a.name ++ ":)") a.type

/-- The fields of an object or interface, then the interfaces that it names. -/
def checkComposite (d : SchemaDraft) (type : CompositeDef) : Except SchemaError Unit := do
  (Dict.values type.fields).forM (d.checkField type.name)
  type.implements.forM fun interface => do
    let kind ← d.lookup interface type.name
    if kind ≠ .interface then throw (.invalidInterface type.name interface)

/-- All references of one type. -/
def checkType (d : SchemaDraft) : TypeDef → Except SchemaError Unit
  | .object type => d.checkComposite type
  | .interface type => d.checkComposite type
  | .union type =>
    type.members.forM fun member => do
      let kind ← d.lookup member type.name
      if kind ≠ .object then throw (.invalidUnionMember type.name member)
  | .inputObject type =>
    (Dict.values type.fields).forM fun field =>
      d.checkInput (type.name ++ "." ++ field.name) field.type
  | .scalar _ | .enum _ => .ok ()

/-- A root that is named has to be an object. -/
def checkRoot (d : SchemaDraft) (operation : OperationKind) (root : Option String) :
    Except SchemaError Unit :=
  match root with
  | none => .ok ()
  | some name =>
    if (Dict.get? d.types name).map TypeDef.kind = some .object then .ok ()
    else .error (.invalidRootType operation name)

/-- The schema of a draft: the roots are checked first, then the types in their order. -/
def build (d : SchemaDraft) : Except SchemaError Schema := do
  match d.query with
  | none => throw .missingQueryType
  | some query =>
    d.checkRoot .query (some query)
    d.checkRoot .mutation d.mutation
    d.checkRoot .subscription d.subscription
    (Dict.values d.types).forM d.checkType
    return ⟨query, d.mutation, d.subscription, d.types, d.directives⟩

end SchemaDraft

end GraphQL
