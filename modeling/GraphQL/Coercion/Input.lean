import GraphQL.Coercion.InputObject

/-!
# Values sent with a request

A JSON value denotes, given a schema, a partial function from types to coerced values (`Json.coerce`), with the
reason if there is none.
-/

namespace GraphQL

/-- Why a value cannot be coerced to a type. -/
inductive CoercionError where
  | unexpectedNull (type : TypeRef)
  | notObject (typeName : String)
  | unknownField (field typeName : String)
  | missingField (field : String) (type : TypeRef)
  | notEnumValue (value : Json) (typeName : String)
  | notInputType (typeName : String)
  | notInt32 (value : Json)
  | notInteger (value : Json)
  | notNumeric (value : Json)
  | notString (value : Json)
  | notBoolean (value : Json)
  | notId (value : Json)

namespace CoercionError

/-- The sentence for a reason. -/
def message : CoercionError → String
  | unexpectedNull type => "Expected non-nullable type \"" ++ type.text ++ "\" not to be null."
  | notObject typeName => "Expected type \"" ++ typeName ++ "\" to be an object."
  | unknownField field typeName => "Field \"" ++ field ++ "\" is not defined by type \"" ++ typeName ++ "\"."
  | missingField field type =>
    "Field \"" ++ field ++ "\" of required type \"" ++ type.text ++ "\" was not provided."
  | notEnumValue value typeName => "Value " ++ value.text ++ " does not exist in \"" ++ typeName ++ "\" enum."
  | notInputType typeName => "Type \"" ++ typeName ++ "\" is not an input type."
  | notInt32 value => "Int cannot represent non 32-bit signed integer value: " ++ value.text
  | notInteger value => "Int cannot represent non-integer value: " ++ value.text
  | notNumeric value => "Float cannot represent non numeric value: " ++ value.text
  | notString value => "String cannot represent a non string value: " ++ value.text
  | notBoolean value => "Boolean cannot represent a non boolean value: " ++ value.text
  | notId value => "ID cannot represent value: " ++ value.text

end CoercionError

namespace Json

/-- A value, not null, at a scalar type.  Scalars that are not built in take any value. -/
def atScalar (typeName : String) (value : Json) : Except CoercionError Json :=
  match typeName, value with
  | "Int", .number n =>
    match n.toInt64? with
    | some i => if IntRange.int32.holds i then .ok (.ofInt i) else .error (.notInt32 value)
    | none => .error (.notInt32 value)
  | "Int", _ => .error (.notInteger value)
  | "Float", .number _ => .ok value
  | "Float", _ => .error (.notNumeric value)
  | "String", .string _ => .ok value
  | "String", _ => .error (.notString value)
  | "Boolean", .bool _ => .ok value
  | "Boolean", _ => .error (.notBoolean value)
  | "ID", .string _ => .ok value
  | "ID", .number n => if n.isInt then .ok (.string n.text) else .error (.notId value)
  | "ID", _ => .error (.notId value)
  | _, _ => .ok value

/-- A value, not null, at a named type.  `field?` gives the readers of the fields of an object. -/
def atName (schema : Schema) (value : Json)
    (field? : String → Option (TypeRef → Except CoercionError Json)) (typeName : String) :
    Except CoercionError Json :=
  match Dict.get? schema.types typeName with
  | some (.inputObject d) =>
    match value with
    | .object fields =>
      match (Dict.keys fields).find? fun key => !Dict.contains d.fields key with
      | some unknown => .error (.unknownField unknown typeName)
      | none => d.assemble field? fun missing => .error (.missingField missing.name missing.type)
    | _ => .error (.notObject typeName)
  | some (.enum d) =>
    match value with
    | .string s => if d.hasValue s then .ok value else .error (.notEnumValue value typeName)
    | _ => .error (.notEnumValue value typeName)
  | some (.scalar _) => atScalar typeName value
  | _ => .error (.notInputType typeName)

mutual

/-- The coerced value at a type. -/
def coerce (schema : Schema) : Json → TypeRef → Except CoercionError Json
  | .null => fun type => if type.isNonNull then .error (.unexpectedNull type) else .ok .null
  | .array items =>
    TypeRef.peel (atName schema (.array items) fun _ => none) <| some fun type =>
      (coerceItems schema items type).map .array
  | .object fields => TypeRef.peel (atName schema (.object fields) (fieldReader? schema fields)) none
  | value => TypeRef.peel (atName schema value fun _ => none) none

/-- The coerced items of an array. -/
def coerceItems (schema : Schema) : List Json → TypeRef → Except CoercionError (List Json)
  | [] => fun _ => .ok []
  | item :: rest => fun type => do
    let value ← coerce schema item type
    return value :: (← coerceItems schema rest type)

/-- The reader of the field with a name. -/
def fieldReader? (schema : Schema) :
    List (String × Json) → String → Option (TypeRef → Except CoercionError Json)
  | [] => fun _ => none
  | (name, value) :: rest => fun wanted =>
    if name = wanted then some (coerce schema value) else fieldReader? schema rest wanted

end

end Json

end GraphQL
