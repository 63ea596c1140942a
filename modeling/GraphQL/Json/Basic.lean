import GraphQL.Dict
import GraphQL.Number.Decimal
import GraphQL.Number.Range

/-!
# JSON values

Values keep what their text shows: the order of the keys of an object, and whether a number is an integer or a
double.  `Json.text` writes them compactly.
-/

namespace GraphQL

/-- A JSON number.  Integers are written as digits; they lie between `-2 ^ 63` and `2 ^ 64 - 1` wherever this
library makes one. -/
inductive Number where
  | int (value : Int)
  | double (value : Double)
deriving DecidableEq, Repr, Inhabited

/-- A JSON value. -/
inductive Json where
  | null
  | bool (value : Bool)
  | number (value : Number)
  | string (value : String)
  | array (items : List Json)
  | object (fields : List (String × Json))
deriving Repr, Inhabited

namespace Number

/-- The integer between `-2 ^ 63` and `2 ^ 63 - 1` that the number is, if it is one. -/
def toInt64? : Number → Option Int
  | int i => if IntRange.int64.holds i then some i else none
  | double _ => none

/-- The nearest double. -/
def toDouble : Number → Double
  | int i => Double.ofInt i
  | double d => d

/-- Written without point and exponent. -/
def isInt : Number → Bool
  | int _ => true
  | double _ => false

/-- A finite double as a number; the others are no JSON numbers. -/
def ofDouble? (d : Double) : Option Number := if d.isFinite then some (double d) else none

/-- The text of a number. -/
def text : Number → String
  | int i => toString i
  | double d => d.text

end Number

namespace Json

/-- An integer as a JSON value. -/
def ofInt (i : Int) : Json := number (.int i)

/-- A natural number as a JSON value. -/
def ofNat (n : Nat) : Json := number (.int n)

/-- A list of values as an array. -/
def ofList {α : Type} (write : α → Json) (xs : List α) : Json := array (xs.map write)

/-- A value, or null. -/
def ofOption {α : Type} (write : α → Json) : Option α → Json
  | some a => write a
  | none => null

/-- Whether the value is `null`. -/
def isNull : Json → Bool
  | null => true
  | _ => false

/-- The value at a key of an object. -/
def get? : Json → String → Option Json
  | object fields, key => Dict.get? fields key
  | _, _ => none

mutual

/-- Decides whether two values are equal, key order and kinds of numbers included. -/
def decEq : (a b : Json) → Decidable (a = b)
  | null, b => by
    cases b with
    | null => exact isTrue rfl
    | _ => exact isFalse (by simp)
  | bool x, b => by
    cases b with
    | bool y => exact if h : x = y then isTrue (by rw [h]) else isFalse (by simpa using h)
    | _ => exact isFalse (by simp)
  | number x, b => by
    cases b with
    | number y => exact if h : x = y then isTrue (by rw [h]) else isFalse (by simpa using h)
    | _ => exact isFalse (by simp)
  | string x, b => by
    cases b with
    | string y => exact if h : x = y then isTrue (by rw [h]) else isFalse (by simpa using h)
    | _ => exact isFalse (by simp)
  | array xs, b => by
    cases b with
    | array ys =>
      exact match decEqItems xs ys with
        | isTrue h => isTrue (by rw [h])
        | isFalse h => isFalse (by simpa using h)
    | _ => exact isFalse (by simp)
  | object xs, b => by
    cases b with
    | object ys =>
      exact match decEqFields xs ys with
        | isTrue h => isTrue (by rw [h])
        | isFalse h => isFalse (by simpa using h)
    | _ => exact isFalse (by simp)

/-- Decides whether two lists of values are equal. -/
def decEqItems : (xs ys : List Json) → Decidable (xs = ys)
  | [], [] => isTrue rfl
  | [], _ :: _ => isFalse (by simp)
  | _ :: _, [] => isFalse (by simp)
  | x :: xs, y :: ys =>
    match decEq x y, decEqItems xs ys with
    | isTrue h, isTrue h' => isTrue (by rw [h, h'])
    | isFalse h, _ => isFalse (by simp [h])
    | _, isFalse h => isFalse (by simp [h])

/-- Decides whether two lists of entries are equal. -/
def decEqFields : (xs ys : List (String × Json)) → Decidable (xs = ys)
  | [], [] => isTrue rfl
  | [], _ :: _ => isFalse (by simp)
  | _ :: _, [] => isFalse (by simp)
  | (k, x) :: xs, (l, y) :: ys =>
    match decEq x y, decEqFields xs ys with
    | isTrue h, isTrue h' =>
      if hk : k = l then isTrue (by rw [h, h', hk]) else isFalse (by simp [hk])
    | isFalse h, _ => isFalse (by simp [h])
    | _, isFalse h => isFalse (by simp [h])

end

instance : DecidableEq Json := decEq

end Json

end GraphQL
