import GraphQL.Coercion.Input
import GraphQL.Coercion.Literal
import GraphQL.Error

/-!
# Variables

The values of the variables of an operation, in the order of their definitions.  Every definition is checked, and
either all variables get their values or every fault is reported, located at its definition.
-/

namespace GraphQL

/-- Why a variable has no value. -/
inductive VariableError where
  | notInputType (name : String) (type : TypeRef)
  | invalidDefault (name : String)
  | missing (name : String) (type : TypeRef)
  | unexpectedNull (name : String) (type : TypeRef)
  | invalid (name : String) (value : Json) (reason : CoercionError)

namespace VariableError

/-- The sentence for a reason. -/
def message : VariableError → String
  | notInputType name type =>
    "Variable \"$" ++ name ++ "\" expected value of type \"" ++ type.text ++
      "\" which cannot be used as an input type."
  | invalidDefault name => "Variable \"$" ++ name ++ "\" has invalid default value."
  | missing name type =>
    "Variable \"$" ++ name ++ "\" of required type \"" ++ type.text ++ "\" was not provided."
  | unexpectedNull name type =>
    "Variable \"$" ++ name ++ "\" of non-null type \"" ++ type.text ++ "\" must not be null."
  | invalid name value reason =>
    "Variable \"$" ++ name ++ "\" got invalid value " ++ value.text ++ "; " ++ reason.message

end VariableError

namespace VariableDefinition

/-- The value of a variable, or none if it is left out. -/
def value (d : VariableDefinition) (schema : Schema) (inputs : Dict Json) :
    Except VariableError (Option Json) :=
  let name := d.name.value
  let type := TypeRef.ofNode d.type
  if !((schema.typeKind? type.innermost).any TypeKind.isInput) then .error (.notInputType name type)
  else
    match Dict.get? inputs name, d.default with
    | none, some default =>
      match default.valueAt? schema [] type with
      | some value => .ok (some value)
      | none => .error (.invalidDefault name)
    | none, none => if type.isNonNull then .error (.missing name type) else .ok none
    | some input, _ =>
      if input.isNull && type.isNonNull then .error (.unexpectedNull name type)
      else
        match input.coerce schema type with
        | .ok value => .ok (some value)
        | .error reason => .error (.invalid name input reason)

end VariableDefinition

/-- The values of all variables, or an error for each that has none. -/
def variableValues (schema : Schema) (definitions : List VariableDefinition) (inputs : Dict Json) :
    Except (List Error) Variables :=
  let results := definitions.map fun d => (d, d.value schema inputs)
  let errors := results.filterMap fun
    | (d, .error e) => some { Error.ofMessage e.message with locations := [d.location] }
    | _ => none
  if errors.isEmpty then
    .ok <| Dict.ofEntries <| results.filterMap fun
      | (d, .ok (some value)) => some (d.name.value, value)
      | _ => none
  else .error errors

end GraphQL
