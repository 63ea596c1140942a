import GraphQL.Schema.TypeDef
import GraphQL.Wire.Fields

/-!
# Type definitions in JSON

Every definition is written with all its fields, absent options as null; how a scalar serializes its values is not
written, and a scalar that is read takes them as they are.  A type definition is an object with its kind as the only
key.
-/

namespace GraphQL

namespace TypeRef

/-- Reads the layers as objects with one key each. -/
def ofJson? : Json → Option TypeRef
  | .object [("Named", .string name)] => some (named name)
  | .object [("List", item)] => (ofJson? item).map list
  | .object [("NonNull", type)] => (ofJson? type).map nonNull
  | _ => none

end TypeRef

/-- All entries of a dictionary as an object. -/
def Json.ofDict {α : Type} (write : α → Json) (d : Dict α) : Json := .object (Dict.mapValues write d)

namespace InputFieldDef

/-- Writes an argument or input field. -/
def toJson (d : InputFieldDef) : Json :=
  .object [("name", .string d.name), ("description", .ofOptionalText d.description),
    ("ty", d.type.toJson), ("default_value", .ofOption id d.default)]

/-- Reads an argument or input field. -/
def ofJson? (j : Json) : Option InputFieldDef := do
  let p ← Wire.Parts.of? 4 j
  let name ← p.required 0 "name" Wire.text?
  let description ← p.optional 1 "description" Wire.text?
  let type ← p.required 2 "ty" TypeRef.ofJson?
  let default ← p.optional 3 "default_value" Wire.any?
  return ⟨name, description, type, default⟩

end InputFieldDef

namespace FieldDef

/-- Writes a field. -/
def toJson (d : FieldDef) : Json :=
  .object [("name", .string d.name), ("description", .ofOptionalText d.description),
    ("ty", d.type.toJson), ("arguments", .ofDict InputFieldDef.toJson d.arguments),
    ("deprecated", .bool d.deprecated), ("deprecation_reason", .ofOptionalText d.deprecationReason)]

/-- Reads a field. -/
def ofJson? (j : Json) : Option FieldDef := do
  let p ← Wire.Parts.of? 6 j
  let name ← p.required 0 "name" Wire.text?
  let description ← p.optional 1 "description" Wire.text?
  let type ← p.required 2 "ty" TypeRef.ofJson?
  let arguments ← p.required 3 "arguments" (Wire.dict? InputFieldDef.ofJson?)
  let deprecated ← p.required 4 "deprecated" Wire.bool?
  let reason ← p.optional 5 "deprecation_reason" Wire.text?
  return ⟨name, description, type, arguments, deprecated, reason⟩

end FieldDef

namespace ScalarDef

/-- Writes a scalar. -/
def toJson (d : ScalarDef) : Json :=
  .object [("name", .string d.name), ("description", .ofOptionalText d.description)]

/-- Reads a scalar. -/
def ofJson? (j : Json) : Option ScalarDef := do
  let p ← Wire.Parts.of? 2 j
  let name ← p.required 0 "name" Wire.text?
  let description ← p.optional 1 "description" Wire.text?
  return { name := name, description := description }

end ScalarDef

namespace CompositeDef

/-- Writes an object or interface. -/
def toJson (d : CompositeDef) : Json :=
  .object [("name", .string d.name), ("description", .ofOptionalText d.description),
    ("fields", .ofDict FieldDef.toJson d.fields),
    ("implements", .array (d.implements.map .string))]

/-- Reads an object or interface. -/
def ofJson? (j : Json) : Option CompositeDef := do
  let p ← Wire.Parts.of? 4 j
  let name ← p.required 0 "name" Wire.text?
  let description ← p.optional 1 "description" Wire.text?
  let fields ← p.required 2 "fields" (Wire.dict? FieldDef.ofJson?)
  let implements ← p.required 3 "implements" (Wire.list? Wire.text?)
  return ⟨name, description, fields, implements⟩

end CompositeDef

namespace UnionDef

/-- Writes a union. -/
def toJson (d : UnionDef) : Json :=
  .object [("name", .string d.name), ("description", .ofOptionalText d.description),
    ("members", .array (d.members.map .string))]

/-- Reads a union. -/
def ofJson? (j : Json) : Option UnionDef := do
  let p ← Wire.Parts.of? 3 j
  let name ← p.required 0 "name" Wire.text?
  let description ← p.optional 1 "description" Wire.text?
  let members ← p.required 2 "members" (Wire.list? Wire.text?)
  return ⟨name, description, members⟩

end UnionDef

namespace EnumValueDef

/-- Writes a value of an enum. -/
def toJson (d : EnumValueDef) : Json :=
  .object [("name", .string d.name), ("description", .ofOptionalText d.description),
    ("deprecated", .bool d.deprecated), ("deprecation_reason", .ofOptionalText d.deprecationReason)]

/-- Reads a value of an enum. -/
def ofJson? (j : Json) : Option EnumValueDef := do
  let p ← Wire.Parts.of? 4 j
  let name ← p.required 0 "name" Wire.text?
  let description ← p.optional 1 "description" Wire.text?
  let deprecated ← p.required 2 "deprecated" Wire.bool?
  let reason ← p.optional 3 "deprecation_reason" Wire.text?
  return ⟨name, description, deprecated, reason⟩

end EnumValueDef

namespace EnumDef

/-- Writes an enum. -/
def toJson (d : EnumDef) : Json :=
  .object [("name", .string d.name), ("description", .ofOptionalText d.description),
    ("values", .array (d.values.map EnumValueDef.toJson))]

/-- Reads an enum. -/
def ofJson? (j : Json) : Option EnumDef := do
  let p ← Wire.Parts.of? 3 j
  let name ← p.required 0 "name" Wire.text?
  let description ← p.optional 1 "description" Wire.text?
  let values ← p.required 2 "values" (Wire.list? EnumValueDef.ofJson?)
  return ⟨name, description, values⟩

end EnumDef

namespace InputObjectDef

/-- Writes an input object. -/
def toJson (d : InputObjectDef) : Json :=
  .object [("name", .string d.name), ("description", .ofOptionalText d.description),
    ("fields", .ofDict InputFieldDef.toJson d.fields)]

/-- Reads an input object. -/
def ofJson? (j : Json) : Option InputObjectDef := do
  let p ← Wire.Parts.of? 3 j
  let name ← p.required 0 "name" Wire.text?
  let description ← p.optional 1 "description" Wire.text?
  let fields ← p.required 2 "fields" (Wire.dict? InputFieldDef.ofJson?)
  return ⟨name, description, fields⟩

end InputObjectDef

namespace TypeDef

/-- Writes a type definition under its kind. -/
def toJson (d : TypeDef) : Json :=
  let body := match d with
    | scalar d => d.toJson
    | object d => d.toJson
    | interface d => d.toJson
    | union d => d.toJson
    | enum d => d.toJson
    | inputObject d => d.toJson
  .object [(d.kind.text, body)]

/-- Reads a type definition under its kind. -/
def ofJson? : Json → Option TypeDef
  | .object [("Scalar", body)] => (ScalarDef.ofJson? body).map scalar
  | .object [("Object", body)] => (CompositeDef.ofJson? body).map object
  | .object [("Interface", body)] => (CompositeDef.ofJson? body).map interface
  | .object [("Union", body)] => (UnionDef.ofJson? body).map union
  | .object [("Enum", body)] => (EnumDef.ofJson? body).map enum
  | .object [("InputObject", body)] => (InputObjectDef.ofJson? body).map inputObject
  | _ => none

end TypeDef

namespace DirectiveLocation

/-- What a location is called. -/
def text : DirectiveLocation → String
  | query => "Query"
  | mutation => "Mutation"
  | subscription => "Subscription"
  | field => "Field"
  | fragmentDefinition => "FragmentDefinition"
  | fragmentSpread => "FragmentSpread"
  | inlineFragment => "InlineFragment"
  | variableDefinition => "VariableDefinition"

end DirectiveLocation

namespace DirectiveDef

/-- Writes a directive definition. -/
def toJson (d : DirectiveDef) : Json :=
  .object [("name", .string d.name), ("description", .ofOptionalText d.description),
    ("arguments", .ofDict InputFieldDef.toJson d.arguments),
    ("locations", .array (d.locations.map fun l => .string l.text)), ("repeatable", .bool d.repeatable)]

end DirectiveDef

end GraphQL
