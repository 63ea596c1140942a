import GraphQL.Coercion.Literal
import GraphQL.Error

/-!
# Arguments

The values of the arguments of a field or directive, in the order of their definitions.  An argument that is not
written, or written as a variable without a value, takes its default or is left out; one that has to be there and is
not, or whose literal does not fit, is an error.
-/

namespace GraphQL

/-- The values of arguments by name. -/
abbrev ArgumentValues := Dict Json

/-- Why the arguments of a field or directive have no values. -/
inductive ArgumentError where
  | missing (name : String) (type : TypeRef)
  | missingVariable (name : String) (type : TypeRef) (variableName : String)
  | unexpectedNull (name : String) (type : TypeRef)
  | invalid (name : String) (value : Literal)

namespace ArgumentError

/-- The sentence for a reason. -/
def message : ArgumentError → String
  | missing name type =>
    "Argument \"" ++ name ++ "\" of required type \"" ++ type.text ++ "\" was not provided."
  | missingVariable name type variableName =>
    "Argument \"" ++ name ++ "\" of required type \"" ++ type.text ++
      "\" was provided the variable \"$" ++ variableName ++ "\" which was not provided a runtime value."
  | unexpectedNull name type =>
    "Argument \"" ++ name ++ "\" of non-null type \"" ++ type.text ++ "\" must not be null."
  | invalid name value => "Argument \"" ++ name ++ "\" has invalid value " ++ value.display ++ "."

/-- The error that a client gets. -/
def toError (e : ArgumentError) : Error := .ofMessage e.message

end ArgumentError

/-- The value of an argument that is not written; `absent` is the error if it had to be there. -/
def InputFieldDef.absentValue (d : InputFieldDef) (absent : ArgumentError) :
    Except ArgumentError (Option Json) :=
  match d.default with
  | some default => .ok (some default)
  | none => if d.type.isNonNull then .error absent else .ok none

/-- The value of one argument, or none if it is left out. -/
def InputFieldDef.argumentValue (d : InputFieldDef) (schema : Schema) (vars : Variables)
    (written : List Argument) : Except ArgumentError (Option Json) :=
  match (written.find? (·.name.value = d.name)).map Argument.value with
  | none => d.absentValue (.missing d.name d.type)
  | some (.variable v) =>
    match Dict.get? vars v.value with
    | none => d.absentValue (.missingVariable d.name d.type v.value)
    | some value =>
      if value.isNull && d.type.isNonNull then .error (.unexpectedNull d.name d.type)
      else .ok (some value)
  | some value =>
    match value.valueAt? schema vars d.type with
    | some found => .ok (some found)
    | none => .error (.invalid d.name value)

/-- The values of the arguments that are written or have defaults. -/
def argumentValues (schema : Schema) (definitions : Dict InputFieldDef) (written : List Argument)
    (vars : Variables) : Except ArgumentError ArgumentValues := do
  let entries ← (Dict.values definitions).mapM fun d => do
    let value ← d.argumentValue schema vars written
    return value.map fun v => (d.name, v)
  return entries.filterMap fun e => e

end GraphQL
