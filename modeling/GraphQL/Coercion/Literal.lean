import GraphQL.Coercion.InputObject

/-!
# Values of literals

A literal denotes a partial function from types to values (`Literal.valueAt?`), given a schema and the values of the
variables.  Of a type that is not built in, a scalar takes any literal as it is (`Literal.untyped?`).

A variable without a value is no value; as an item of a list it counts as null, and as a field of an object it
counts as left out.
-/

namespace GraphQL

namespace Literal

mutual

/-- The value of a literal that no type restricts.  Variables have none. -/
def untyped? : Literal → Option Json
  | .variable _ => none
  | .int i => some (.ofInt i)
  | .float d => some (if d.isFinite then .number (.double d) else .null)
  | .string s => some (.string s)
  | .enumValue s => some (.string s)
  | .bool b => some (.bool b)
  | .null => some .null
  | .list items => (untypedItems? items).map .array
  | .object fields => (untypedFields? fields).map fun entries => .object (Dict.ofEntries entries)

/-- The values of items that no type restricts. -/
def untypedItems? : List Literal → Option (List Json)
  | [] => some []
  | item :: rest => do return (← untyped? item) :: (← untypedItems? rest)

/-- The values of fields that no type restricts. -/
def untypedFields? : List (Name × Literal) → Option (List (String × Json))
  | [] => some []
  | (name, value) :: rest => do return (name.value, ← untyped? value) :: (← untypedFields? rest)

end

/-- How a literal is shown in a sentence; one that has a variable inside is not shown. -/
def display : Literal → String
  | .variable name => "$" ++ name.value
  | .enumValue name => name
  | value => (value.untyped?.map Json.text).getD ""

/-- The value of a literal at a scalar type. -/
def atScalar? (typeName : String) (value : Literal) : Option Json :=
  match typeName, value with
  | "Int", .int i => if IntRange.int32.holds i then some (.ofInt i) else none
  | "Int", _ => none
  | "Float", .int i => some (.number (.double (Double.ofInt i)))
  | "Float", .float d => (Number.ofDouble? d).map .number
  | "Float", _ => none
  | "String", .string s => some (.string s)
  | "String", _ => none
  | "Boolean", .bool b => some (.bool b)
  | "Boolean", _ => none
  | "ID", .string s => some (.string s)
  | "ID", .int i => some (.string (toString i))
  | "ID", _ => none
  | _, _ => value.untyped?

/-- The value of a literal, not a variable and not null, at a named type.  `field?` gives the readers of the fields
of an object literal. -/
def atName? (schema : Schema) (value : Literal) (field? : Option (String → Option (TypeRef → Option Json)))
    (typeName : String) : Option Json :=
  match Dict.get? schema.types typeName with
  | some (.inputObject d) => field?.bind fun read? => d.assemble read? fun _ => none
  | some (.enum d) =>
    match value with
    | .enumValue name => if d.hasValue name then some (.string name) else none
    | _ => none
  | some (.scalar d) => atScalar? d.name value
  | _ => none

/-- Whether the literal is a variable without a value. -/
def isMissing (vars : Variables) : Literal → Bool
  | .variable name => !Dict.contains vars name.value
  | _ => false

mutual

/-- The value of a literal at a type. -/
def valueAt? (schema : Schema) (vars : Variables) : Literal → TypeRef → Option Json
  | .variable name => fun type =>
    (Dict.get? vars name.value).bind fun found =>
      if found.isNull && type.isNonNull then none else some found
  | .null => fun type => if type.isNonNull then none else some .null
  | .list items =>
    TypeRef.peel (atName? schema (.list items) none) <| some fun type =>
      (itemsAt? schema vars items type).map .array
  | .object fields =>
    TypeRef.peel (atName? schema (.object fields) (some (fieldReader? schema vars fields))) none
  | value => TypeRef.peel (atName? schema value none) none

/-- The values of the items of a list at the type of the items. -/
def itemsAt? (schema : Schema) (vars : Variables) : List Literal → TypeRef → Option (List Json)
  | [] => fun _ => some []
  | item :: rest => fun type => do
    let value ←
      if isMissing vars item then (if type.isNonNull then none else some .null)
      else valueAt? schema vars item type
    return value :: (← itemsAt? schema vars rest type)

/-- The reader of the first field with a name, unless that field is a variable without a value. -/
def fieldReader? (schema : Schema) (vars : Variables) :
    List (Name × Literal) → String → Option (TypeRef → Option Json)
  | [] => fun _ => none
  | (name, value) :: rest => fun wanted =>
    if name.value = wanted then
      if isMissing vars value then none else some (valueAt? schema vars value)
    else fieldReader? schema vars rest wanted

end

end Literal

end GraphQL
