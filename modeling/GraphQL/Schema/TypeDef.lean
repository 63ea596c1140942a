import GraphQL.Schema.Leaf
import GraphQL.TypeRef

/-!
# Type definitions

The six kinds of types of a schema, their fields and arguments, and directive definitions.  Dictionaries of fields
and arguments are in the order of definition.
-/

namespace GraphQL

/-- The kind of a type. -/
inductive TypeKind where
  | scalar | object | interface | union | enum | inputObject
deriving DecidableEq, Repr

namespace TypeKind

/-- Whether values of the kind have no fields. -/
def isLeaf : TypeKind → Bool
  | scalar | enum => true
  | _ => false

/-- Whether values of the kind have an object type of their own. -/
def isAbstract : TypeKind → Bool
  | interface | union => true
  | _ => false

/-- Whether arguments can have types of the kind. -/
def isInput : TypeKind → Bool
  | scalar | enum | inputObject => true
  | _ => false

/-- Whether fields can have types of the kind. -/
def isOutput : TypeKind → Bool
  | inputObject => false
  | _ => true

/-- What the kind is called. -/
def text : TypeKind → String
  | scalar => "Scalar"
  | object => "Object"
  | interface => "Interface"
  | union => "Union"
  | enum => "Enum"
  | inputObject => "InputObject"

end TypeKind

/-- An argument, or a field of an input object. -/
structure InputFieldDef where
  name : String
  description : Option String := none
  type : TypeRef
  default : Option Json := none
deriving Repr, Inhabited

/-- A field of an object or interface. -/
structure FieldDef where
  name : String
  description : Option String := none
  type : TypeRef
  arguments : Dict InputFieldDef := []
  deprecated : Bool := false
  deprecationReason : Option String := none
deriving Repr, Inhabited

/-- A type with leaf values of any shape. -/
structure ScalarDef where
  name : String
  description : Option String := none
  serialize : LeafSerializer := LeafSerializer.identity

/-- An object or interface: fields, and the interfaces that it implements. -/
structure CompositeDef where
  name : String
  description : Option String := none
  fields : Dict FieldDef := []
  implements : List String := []
deriving Repr, Inhabited

/-- A choice of objects. -/
structure UnionDef where
  name : String
  description : Option String := none
  members : List String := []
deriving Repr, Inhabited

/-- A value of an enum. -/
structure EnumValueDef where
  name : String
  description : Option String := none
  deprecated : Bool := false
  deprecationReason : Option String := none
deriving Repr, Inhabited

/-- A choice of names. -/
structure EnumDef where
  name : String
  description : Option String := none
  values : List EnumValueDef := []
deriving Repr, Inhabited

/-- An object that only arguments can have. -/
structure InputObjectDef where
  name : String
  description : Option String := none
  fields : Dict InputFieldDef := []
deriving Repr, Inhabited

/-- A type of a schema. -/
inductive TypeDef where
  | scalar (definition : ScalarDef)
  | object (definition : CompositeDef)
  | interface (definition : CompositeDef)
  | union (definition : UnionDef)
  | enum (definition : EnumDef)
  | inputObject (definition : InputObjectDef)

/-- Where a directive may be written. -/
inductive DirectiveLocation where
  | query | mutation | subscription | field
  | fragmentDefinition | fragmentSpread | inlineFragment | variableDefinition
deriving DecidableEq, Repr

/-- A directive of a schema. -/
structure DirectiveDef where
  name : String
  description : Option String := none
  arguments : Dict InputFieldDef := []
  locations : List DirectiveLocation := []
  repeatable : Bool := false
deriving Repr

namespace EnumDef

/-- An enum without descriptions. -/
def ofNames (name : String) (values : List String) : EnumDef where
  name := name
  values := values.map fun v => { name := v }

/-- Whether a name is one of the values. -/
def hasValue (d : EnumDef) (name : String) : Bool := d.values.any (·.name = name)

/-- The name of a value as it is. -/
def serialize (d : EnumDef) : LeafSerializer := fun v =>
  match v with
  | .string s => if d.hasValue s then .ok v else .error (.notEnumValue d.name v)
  | _ => .error (.notEnumValue d.name v)

end EnumDef

namespace TypeDef

/-- The name of a type. -/
def name : TypeDef → String
  | scalar d => d.name
  | object d => d.name
  | interface d => d.name
  | union d => d.name
  | enum d => d.name
  | inputObject d => d.name

/-- The kind of a type. -/
def kind : TypeDef → TypeKind
  | scalar _ => .scalar
  | object _ => .object
  | interface _ => .interface
  | union _ => .union
  | enum _ => .enum
  | inputObject _ => .inputObject

end TypeDef

namespace ScalarDef

/-- The five scalars of every schema. -/
def builtin : List ScalarDef :=
  [("Int", LeafSerializer.int), ("Float", .float), ("String", .string), ("Boolean", .boolean),
    ("ID", .id)].map fun (name, serialize) =>
      { name := name, description := some ("Built-in " ++ name ++ " scalar"), serialize := serialize }

end ScalarDef

namespace DirectiveDef

private def namedArgument (name description : String) (type : TypeRef) (default : Option Json) :
    InputFieldDef where
  name := name
  description := some description
  type := type
  default := default

private def onSelections : List DirectiveLocation := [.field, .fragmentSpread, .inlineFragment]

/-- Leaves a selection out when its condition is true. -/
def skipIf : DirectiveDef where
  name := "skip"
  description := some "Directs the executor to skip this field or fragment when the `if` argument is true."
  arguments := [("if", namedArgument "if" "Skipped when true." (.nonNull (.named "Boolean")) none)]
  locations := onSelections

/-- Leaves a selection out when its condition is false. -/
def includeIf : DirectiveDef where
  name := "include"
  description := some <|
    "Directs the executor to include this field or fragment only when the `if` argument is true."
  arguments := [("if", namedArgument "if" "Included when true." (.nonNull (.named "Boolean")) none)]
  locations := onSelections

/-- Delivers a fragment after the initial result. -/
def defer : DirectiveDef where
  name := "defer"
  description := some <|
    "Directs the executor to defer this fragment when the `if` argument is true or undefined."
  arguments :=
    [("if", namedArgument "if" "Deferred when true or undefined." (.nonNull (.named "Boolean"))
        (some (.bool true))),
      ("label", namedArgument "label" "Unique name" (.named "String") none)]
  locations := [.fragmentSpread, .inlineFragment]

/-- Delivers the items of a list one by one after the initial ones. -/
def stream : DirectiveDef where
  name := "stream"
  description := some <|
    "Directs the executor to stream plural fields when the `if` argument is true or undefined."
  arguments :=
    [("if", namedArgument "if" "Stream when true or undefined." (.nonNull (.named "Boolean"))
        (some (.bool true))),
      ("label", namedArgument "label" "Unique name" (.named "String") none),
      ("initialCount", namedArgument "initialCount" "Number of items to return immediately"
        (.named "Int") (some (.ofNat 0)))]
  locations := [.field]

/-- The directives of every schema. -/
def builtin : List DirectiveDef := [skipIf, includeIf, defer, stream]

end DirectiveDef

end GraphQL
