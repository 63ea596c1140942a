import GraphQL.Json.Basic
import GraphQL.Directive

/-!
# Records in JSON

A record is written as an object of its fields.  It is read from an object, in which fields may come in any order and
unknown ones are ignored, or from an array of the fields in order.  A field with a default may be missing in both, an
optional field only in an object.
-/

namespace GraphQL

namespace Wire

/-- The parts of a record that is read: by name, or in order. -/
inductive Parts where
  | named (fields : Dict Json)
  | ordered (items : List Json)

namespace Parts

/-- The parts of a value for a record of so many fields. -/
def of? (size : Nat) : Json → Option Parts
  | .object fields => some (named fields)
  | .array items => if items.length ≤ size then some (ordered items) else none
  | _ => none

/-- The part of a field, by its name or its position. -/
def get? : Parts → (position : Nat) → (name : String) → Option Json
  | named fields, _, name => Dict.get? fields name
  | ordered items, position, _ => items[position]?

variable {α : Type}

/-- A field that has to be there. -/
def required (p : Parts) (position : Nat) (name : String) (read : Json → Option α) : Option α :=
  (p.get? position name).bind read

/-- A field with a default. -/
def withDefault (p : Parts) (position : Nat) (name : String) (default : α) (read : Json → Option α) :
    Option α :=
  match p.get? position name with
  | some value => read value
  | none => some default

/-- A field that may be null, and may be left out of an object. -/
def optional (p : Parts) (position : Nat) (name : String) (read : Json → Option α) :
    Option (Option α) :=
  match p, p.get? position name with
  | _, some .null => some none
  | _, some value => (read value).map some
  | .named _, none => some none
  | .ordered _, none => none

/-- A field that may be null or left out. -/
def optionalWithDefault (p : Parts) (position : Nat) (name : String) (read : Json → Option α) :
    Option (Option α) :=
  match p.get? position name with
  | none | some .null => some none
  | some value => (read value).map some

end Parts

variable {α : Type}

/-- A string. -/
def text? : Json → Option String
  | .string s => some s
  | _ => none

/-- A boolean. -/
def bool? : Json → Option Bool
  | .bool b => some b
  | _ => none

/-- A natural number up to a bound. -/
def natUpTo? (bound : Nat) : Json → Option Nat
  | .number (.int i) => if 0 ≤ i ∧ i ≤ bound then some i.toNat else none
  | _ => none

/-- An array of values of one kind. -/
def list? (read : Json → Option α) : Json → Option (List α)
  | .array items => items.mapM read
  | _ => none

/-- An object of values of one kind. -/
def dict? (read : Json → Option α) : Json → Option (Dict α)
  | .object fields => fields.mapM fun e => (read e.2).map (e.1, ·)
  | _ => none

/-- Any value. -/
def any? : Json → Option Json := some

end Wire

namespace DeferDirective

/-- Reads the arguments of a directive. -/
def ofJson? (j : Json) : Option DeferDirective := do
  let p ← Wire.Parts.of? 2 j
  let label ← p.optionalWithDefault 0 "label" Wire.text?
  let condition ← p.withDefault 1 "if" true Wire.bool?
  return ⟨label, condition⟩

end DeferDirective

namespace StreamDirective

/-- Reads the arguments of a directive. -/
def ofJson? (j : Json) : Option StreamDirective := do
  let p ← Wire.Parts.of? 3 j
  let label ← p.optionalWithDefault 0 "label" Wire.text?
  let condition ← p.withDefault 1 "if" true Wire.bool?
  let initialCount ← p.withDefault 2 "initialCount" 0 fun v => v.toInt64.toOption
  return ⟨label, condition, initialCount⟩

end StreamDirective

end GraphQL
