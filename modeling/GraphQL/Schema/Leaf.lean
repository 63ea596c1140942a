import GraphQL.Json.Printer

/-!
# Results of leaf types

How the built-in scalars turn the value of a resolver into the value of a response, and why they may refuse.
-/

namespace GraphQL

/-- Why a leaf type refuses the value of a resolver. -/
inductive LeafError where
  | notInteger (value : Json)
  | notInt32 (value : Json)
  | notNumeric (value : Json)
  | notString (value : Json)
  | notBoolean (value : Json)
  | notId (value : Json)
  | notEnumValue (enumName : String) (value : Json)
  | notLeafType (typeName : String)
  | custom (message : String)

namespace LeafError

/-- The sentence for a refusal. -/
def message : LeafError → String
  | notInteger v => "Int cannot represent non-integer value: " ++ v.text
  | notInt32 v => "Int cannot represent non 32-bit signed integer value: " ++ v.text
  | notNumeric v => "Float cannot represent non numeric value: " ++ v.text
  | notString v => "String cannot represent value: " ++ v.text
  | notBoolean v => "Boolean cannot represent a non boolean value: " ++ v.text
  | notId v => "ID cannot represent value: " ++ v.text
  | notEnumValue enumName v => "Enum \"" ++ enumName ++ "\" cannot represent value: " ++ v.text
  | notLeafType typeName => "Type \"" ++ typeName ++ "\" is not a leaf type."
  | custom message => message

end LeafError

/-- Turns the value of a resolver into that of a response. -/
abbrev LeafSerializer := Json → Except LeafError Json

namespace LeafSerializer

/-- The double that a value stands for where a number is wanted: booleans count as 0 and 1, and texts are read. -/
def toDouble? : Json → Option Double
  | .bool b => some (Double.ofInt (if b then 1 else 0))
  | .number n => some n.toDouble
  | .string s => if s.isEmpty then none else Double.read? s
  | _ => none

/-- Integers of 32 bits, also from texts and from doubles without a fraction. -/
def int : LeafSerializer := fun v =>
  match (toDouble? v).bind Double.toInt? with
  | some i => if IntRange.int32.holds i then .ok (.ofInt i) else .error (.notInt32 v)
  | none => .error (.notInteger v)

/-- Finite doubles, also from texts. -/
def float : LeafSerializer := fun v =>
  match (toDouble? v).bind Number.ofDouble? with
  | some n => .ok (.number n)
  | none => .error (.notNumeric v)

/-- Texts, also of booleans and numbers. -/
def string : LeafSerializer := fun v =>
  match v with
  | .string s => .ok (.string s)
  | .bool b => .ok (.string (if b then "true" else "false"))
  | .number n => .ok (.string n.text)
  | _ => .error (.notString v)

/-- Booleans, also from numbers: all but zero are true. -/
def boolean : LeafSerializer := fun v =>
  match v with
  | .bool b => .ok (.bool b)
  | .number n => .ok (.bool (!n.toDouble.isZero))
  | _ => .error (.notBoolean v)

/-- Texts, also of integers. -/
def id : LeafSerializer := fun v =>
  match v with
  | .string s => .ok (.string s)
  | .number n => if n.isInt then .ok (.string n.text) else .error (.notId v)
  | _ => .error (.notId v)

/-- Any value as it is. -/
def identity : LeafSerializer := .ok

end LeafSerializer

end GraphQL
