import GraphQL.Error
import GraphQL.Wire.Fields

/-!
# Reading errors and paths

The inverse of how errors, locations and paths are written.
-/

namespace GraphQL

namespace Location

/-- Reads a line and a column of 32 bits. -/
def ofJson? (j : Json) : Option Location := do
  let p ← Wire.Parts.of? 2 j
  let line ← p.required 0 "line" (Wire.natUpTo? maxOffset)
  let column ← p.required 1 "column" (Wire.natUpTo? maxOffset)
  return ⟨line, column⟩

end Location

namespace Path

/-- The greatest index in a path. -/
def maxIndex : Nat := 18446744073709551615

/-- Reads a step: a key as a string, an index as a number. -/
def segmentOfJson? : Json → Option PathSegment
  | .string s => some (.key s)
  | j => (Wire.natUpTo? maxIndex j).map .index

/-- Reads an array of steps. -/
def ofJson? (j : Json) : Option Path := (Wire.list? segmentOfJson? j).map Path.mk

end Path

namespace Error

/-- Reads an error; all but the message may be left out. -/
def ofJson? (j : Json) : Option Error := do
  let p ← Wire.Parts.of? 4 j
  let message ← p.required 0 "message" Wire.text?
  let locations ← p.withDefault 1 "locations" [] (Wire.list? Location.ofJson?)
  let path ← p.optionalWithDefault 2 "path" Path.ofJson?
  let extensions ← p.optionalWithDefault 3 "extensions" (Wire.dict? Wire.any?)
  return ⟨message, locations, path, extensions⟩

end Error

end GraphQL
