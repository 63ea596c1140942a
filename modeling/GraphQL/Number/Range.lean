/-!
# Ranges of integers

The integers that words of 32 and of 64 bits hold.
-/

namespace GraphQL

/-- The integers from `least` to `greatest`, both included. -/
structure IntRange where
  least : Int
  greatest : Int
deriving DecidableEq, Repr, Inhabited

namespace IntRange

/-- From `-2 ^ 31` to `2 ^ 31 - 1`. -/
def int32 : IntRange := ⟨-2147483648, 2147483647⟩

/-- From `-2 ^ 63` to `2 ^ 63 - 1`. -/
def int64 : IntRange := ⟨-9223372036854775808, 9223372036854775807⟩

/-- From `-2 ^ 63` to `2 ^ 64 - 1`: the integers of 64 bits with a sign and those without. -/
def word64 : IntRange := ⟨-9223372036854775808, 18446744073709551615⟩

/-- Whether an integer is in the range. -/
def holds (r : IntRange) (i : Int) : Bool := r.least ≤ i ∧ i ≤ r.greatest

end IntRange

end GraphQL
