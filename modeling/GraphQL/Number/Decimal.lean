import GraphQL.Number.Double

/-!
# Decimal texts of doubles

`Double.shortest` finds the decimal with the fewest digits that reads back as the same double, and of those
the one nearest to it: for 1, 2, … 17 digits it tries the two neighbours of the value on that decimal grid
against the interval of reals that round to the double, in exact arithmetic.

`DecimalNotation` says how such digits are written, and `Double.text` writes them in the one notation of this
library.  `Double.read?` reads the usual spellings, infinities and not-a-number included.
-/

namespace GraphQL

/-- The value `digits · 10 ^ exponent`. -/
structure Decimal where
  digits : Nat
  exponent : Int
deriving DecidableEq, Repr

namespace Decimal

/-- Moves trailing zeros of the digits into the exponent. -/
def strip (d : Decimal) : Nat → Decimal
  | 0 => d
  | fuel + 1 =>
    if d.digits ≠ 0 ∧ d.digits % 10 = 0 then strip ⟨d.digits / 10, d.exponent + 1⟩ fuel else d

end Decimal

namespace Double

/-- The exponent of the first decimal digit of a positive quotient. -/
def decimalExponent (num den : Nat) : Int :=
  let reaches (x : Int) : Bool := den * Nat.pow 10 x.toNat ≤ num * Nat.pow 10 (-x).toNat
  let guess := Int.fdiv (((num.log2 : Int) - den.log2 - 1) * 30103) 100000
  if reaches (guess + 2) then guess + 2
  else if reaches (guess + 1) then guess + 1
  else if reaches guess then guess
  else guess - 1

/-- The point of the grid of `n` digits, of the two around the value, that reads back as the finite positive
double; the nearer one if both do, and the even one of two equally near. -/
def nearestOnGrid? (d : Double) (n : Nat) : Option Decimal :=
  let m := d.significand
  let num := m * Nat.pow 2 d.scale.toNat
  let den := Nat.pow 2 (-d.scale).toNat
  let unit : Int := decimalExponent num den - n + 1
  -- the value in units of the grid is `top / bottom`
  let top := num * Nat.pow 10 (-unit).toNat
  let bottom := den * Nat.pow 10 unit.toNat
  -- half the gaps to the neighbouring doubles, in quarters of `2 ^ scale`
  let quarter := Nat.pow 2 d.scale.toNat * Nat.pow 10 (-unit).toNat
  let below := if d.fractionField = 0 ∧ 1 < d.exponentField then quarter else 2 * quarter
  let above := 2 * quarter
  let low := top / bottom
  let underBy := 4 * (top - low * bottom)
  let overBy := 4 * ((low + 1) * bottom - top)
  let within (distance gap : Nat) : Bool := if m % 2 = 0 then distance ≤ gap else distance < gap
  let lowFits := within underBy below && low ≠ 0
  let highFits := within overBy above
  let point (digits : Nat) : Decimal := ⟨digits, unit⟩
  if lowFits && highFits then
    if underBy < overBy then some (point low)
    else if overBy < underBy then some (point (low + 1))
    else some (point (low + low % 2))
  else if lowFits then some (point low)
  else if highFits then some (point (low + 1))
  else none

/-- The decimal of fewest digits that reads back as the finite positive double. -/
def shortest (d : Double) : Decimal :=
  let found := (List.range 17).findSome? fun n => d.nearestOnGrid? (n + 1)
  (found.getD ⟨d.significand, 0⟩).strip 20

end Double

/-- How the digits of a finite double are written. -/
structure DecimalNotation where
  /-- The least exponent of the first digit that is written positionally. -/
  leastPositional : Int
  /-- The exponent of the first digit from which on the notation is scientific. -/
  scientificFrom : Int
  /-- Written between a positive exponent and its mark. -/
  positiveExponentSign : String
deriving Repr

namespace DecimalNotation

private def zeros (n : Nat) : String := String.ofList (List.replicate n '0')

/-- Writes a decimal: positionally with at least one digit after the point, or as one digit, the others after
a point if there are any, and a signed exponent. -/
def write (style : DecimalNotation) (d : Decimal) : String :=
  let digits := Nat.toDigits 10 d.digits
  let first : Int := d.exponent + digits.length - 1
  if style.leastPositional ≤ first ∧ first < style.scientificFrom then
    if first < 0 then "0." ++ zeros (-first - 1).toNat ++ String.ofList digits
    else
      let whole := first.toNat + 1
      if digits.length ≤ whole then
        String.ofList digits ++ zeros (whole - digits.length) ++ ".0"
      else String.ofList (digits.take whole) ++ "." ++ String.ofList (digits.drop whole)
  else
    let fraction := digits.drop 1
    String.ofList (digits.take 1) ++
      (if fraction.isEmpty then "" else "." ++ String.ofList fraction) ++ "e" ++
      (if 0 ≤ first then style.positiveExponentSign else "-") ++ toString first.natAbs

end DecimalNotation

namespace Double

/-- Numbers from `0.00001` up to below `1e+16` are written positionally, and an exponent always has a sign. -/
def decimalStyle : DecimalNotation where
  leastPositional := -5
  scientificFrom := 16
  positiveExponentSign := "+"

/-- The text of a finite double. -/
def text (d : Double) : String :=
  let sign := if d.isNegative then "-" else ""
  if d.significand = 0 then sign ++ "0.0" else sign ++ decimalStyle.write d.shortest

/-- Splits off the longest run of decimal digits at the front. -/
def spanDigits (cs : List Char) : List Char × List Char := cs.span Char.isDigit

/-- The number that a run of decimal digits denotes. -/
def natOfDigits (ds : List Char) : Nat := ds.foldl (fun n c => 10 * n + (c.toNat - 48)) 0

/-- Reads the exponent at the end of a number: nothing, or a mark, an optional sign and digits. -/
def readExponent? : List Char → Option Int
  | [] => some 0
  | c :: rest =>
    if c = 'e' ∨ c = 'E' then
      let (negative, digits) : Bool × List Char :=
        match rest with
        | '-' :: r => (true, r)
        | '+' :: r => (false, r)
        | r => (false, r)
      if digits.isEmpty ∨ ¬ digits.all Char.isDigit then none
      else
        let n : Int := natOfDigits digits
        some (if negative then -n else n)
    else none

/-- Reads an unsigned decimal: digits with an optional point, at least one digit in all, and an optional
exponent. -/
def readUnsigned? (negative : Bool) (cs : List Char) : Option Double :=
  let (whole, rest) := spanDigits cs
  let (fraction, rest) : List Char × List Char :=
    match rest with
    | '.' :: r => spanDigits r
    | r => ([], r)
  if whole.isEmpty && fraction.isEmpty then none
  else
    (readExponent? rest).map fun exponent =>
      ofDecimal negative (natOfDigits (whole ++ fraction)) (exponent - fraction.length)

/-- Reads a double: an optional sign, then `inf`, `infinity` or `nan` in any case, or a decimal.  Nothing may
stand before or after it, and a value beyond the range is infinite. -/
def read? (s : String) : Option Double :=
  let (negative, cs) : Bool × List Char :=
    match s.toList with
    | '-' :: r => (true, r)
    | '+' :: r => (false, r)
    | r => (false, r)
  let word := String.ofList (cs.map Char.toLower)
  if word = "inf" ∨ word = "infinity" then some (infinity negative)
  else if word = "nan" then some (nan negative)
  else readUnsigned? negative cs

end Double

end GraphQL
