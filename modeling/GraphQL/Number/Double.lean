/-!
# Doubles

A double is its 64 bits: a sign, 11 bits of exponent, 52 bits of fraction.  A finite one is
`significand · 2 ^ scale`, with its sign.  All arithmetic here is on natural numbers, so a double can be
computed with in proofs.

`ofRatio` rounds a quotient to the nearest double, a tie to the even significand, and everything beyond the
largest double to infinity.  `ofDecimal` reads `digits · 10 ^ exponent` by it.
-/

namespace GraphQL

/-- A double by its bits. -/
structure Double where
  bits : UInt64
deriving DecidableEq, Repr, Inhabited

namespace Double

/-- The 11 bits of the exponent. -/
def exponentField (d : Double) : Nat := d.bits.toNat / Nat.pow 2 52 % Nat.pow 2 11

/-- The 52 bits of the fraction. -/
def fractionField (d : Double) : Nat := d.bits.toNat % Nat.pow 2 52

/-- Whether the sign bit is set. -/
def isNegative (d : Double) : Bool := d.bits.toNat / Nat.pow 2 63 = 1

/-- Neither infinite nor not a number. -/
def isFinite (d : Double) : Bool := d.exponentField ≠ 2047

/-- The integer `m` of the magnitude `m · 2 ^ q` of a finite double. -/
def significand (d : Double) : Nat :=
  if d.exponentField = 0 then d.fractionField else Nat.pow 2 52 + d.fractionField

/-- The exponent `q` of the magnitude `m · 2 ^ q` of a finite double. -/
def scale (d : Double) : Int := max d.exponentField 1 - 1075

/-- One of the two zeros. -/
def isZero (d : Double) : Bool := d.isFinite && d.significand = 0

/-- A magnitude of at most 63 bits with a sign. -/
def ofMagnitude (negative : Bool) (magnitude : Nat) : Double :=
  ⟨UInt64.ofNat (magnitude + if negative then Nat.pow 2 63 else 0)⟩

/-- Zero with a sign. -/
def zero (negative : Bool) : Double := ofMagnitude negative 0

/-- Infinity with a sign. -/
def infinity (negative : Bool) : Double := ofMagnitude negative (2047 * Nat.pow 2 52)

/-- The quiet value that is not a number. -/
def nan (negative : Bool) : Double := ofMagnitude negative (2047 * Nat.pow 2 52 + Nat.pow 2 51)

/-- The quotient rounded to the nearest integer, a tie to the even one. -/
def divRoundEven (num den : Nat) : Nat :=
  let floor := num / den
  let twice := 2 * (num % den)
  if twice < den then floor
  else if den < twice then floor + 1
  else floor + floor % 2

/-- The double nearest to `num / den`, for a positive `den`.

The exponent is the least one, not below that of the smallest doubles, at which the integer part of the scaled
quotient fits in 53 bits.  A significand that rounds up to `2 ^ 53` carries into the exponent by itself. -/
def ofRatio (negative : Bool) (num den : Nat) : Double :=
  if num = 0 then zero negative
  else
    let guess : Int := (num.log2 : Int) - den.log2 - 52
    let floorAt (q : Int) : Nat := num * Nat.pow 2 (-q).toNat / (den * Nat.pow 2 q.toNat)
    let q := max (-1074) (if floorAt guess < Nat.pow 2 52 then guess - 1 else guess)
    if 971 < q then infinity negative
    else
      let m := divRoundEven (num * Nat.pow 2 (-q).toNat) (den * Nat.pow 2 q.toNat)
      ofMagnitude negative (min ((q + 1074).toNat * Nat.pow 2 52 + m) (2047 * Nat.pow 2 52))

/-- The double nearest to an integer. -/
def ofInt (i : Int) : Double := ofRatio (i < 0) i.natAbs 1

/-- How many decimal digits a number has; zero has one. -/
def digitCount (n : Nat) : Nat := (Nat.toDigits 10 n).length

/-- The double nearest to `digits · 10 ^ exponent`.  Exponents far outside the range of doubles are settled
before any power is taken. -/
def ofDecimal (negative : Bool) (digits : Nat) (exponent : Int) : Double :=
  if digits = 0 then zero negative
  else
    let magnitude := exponent + digitCount digits
    if 400 < magnitude then infinity negative
    else if magnitude < -400 then zero negative
    else ofRatio negative (digits * Nat.pow 10 exponent.toNat) (Nat.pow 10 (-exponent).toNat)

/-- The integer that a finite double is, if it is one. -/
def toInt? (d : Double) : Option Int :=
  let num := d.significand * Nat.pow 2 d.scale.toNat
  let den := Nat.pow 2 (-d.scale).toNat
  if d.isFinite ∧ num % den = 0 then
    some (if d.isNegative then -(num / den : Nat) else (num / den : Nat))
  else none

/-- The 16 hexadecimal digits of the bits. -/
def toHex (d : Double) : String :=
  let digits := Nat.toDigits 16 d.bits.toNat
  String.ofList (List.replicate (16 - digits.length) '0' ++ digits)

end Double

end GraphQL
