import GraphQL.Json.Basic
import GraphQL.Text.Quoted

/-!
# JSON values of a wanted type

Readers that either take a value or say what they found instead.
-/

namespace GraphQL

/-- What kind of value was wanted. -/
inductive Wanted where
  | int64 | boolean | string | sequence
deriving DecidableEq, Repr

/-- Why a value could not be taken. -/
inductive Mismatch where
  /-- The value is of another type. -/
  | type (found : Json) (wanted : Wanted)
  /-- The value is of the type, but out of its range. -/
  | range (found : Json) (wanted : Wanted)

namespace Wanted

/-- What a kind of value is called. -/
def text : Wanted → String
  | int64 => "i64"
  | boolean => "a boolean"
  | string => "a string"
  | sequence => "a sequence"

end Wanted

namespace Mismatch

/-- How a found value is shown. -/
def describe : Json → String
  | .null => "null"
  | .bool b => "boolean `" ++ (if b then "true" else "false") ++ "`"
  | .number (.int i) => "integer `" ++ toString i ++ "`"
  | .number (.double d) => "floating point `" ++ d.text ++ "`"
  | .string s => "string " ++ Text.quoted s
  | .array _ => "sequence"
  | .object _ => "map"

/-- The sentence for a mismatch. -/
def message : Mismatch → String
  | type found wanted => "invalid type: " ++ describe found ++ ", expected " ++ wanted.text
  | range found wanted => "invalid value: " ++ describe found ++ ", expected " ++ wanted.text

end Mismatch

namespace Json

/-- An integer of 64 bits. -/
def toInt64 (j : Json) : Except Mismatch Int :=
  match j with
  | number (.int i) => if IntRange.int64.holds i then .ok i else .error (.range j .int64)
  | _ => .error (.type j .int64)

/-- A boolean. -/
def toBool (j : Json) : Except Mismatch Bool :=
  match j with
  | bool b => .ok b
  | _ => .error (.type j .boolean)

/-- A string. -/
def toText (j : Json) : Except Mismatch String :=
  match j with
  | string s => .ok s
  | _ => .error (.type j .string)

/-- A string, or nothing for null. -/
def toOptionalText (j : Json) : Except Mismatch (Option String) :=
  match j with
  | null => .ok none
  | _ => j.toText.map some

/-- An array of strings. -/
def toTexts (j : Json) : Except Mismatch (List String) :=
  match j with
  | array items => items.mapM toText
  | _ => .error (.type j .sequence)

end Json

end GraphQL
