/-!
# Positions in a source text

Offsets and columns count UTF-8 bytes.  A span is the half-open range `start … stop`; a location is a line and a
column, both from 1.  `LineIndex.location` searches for the line of an offset among the starts of all lines.
-/

namespace GraphQL

/-- The greatest offset, length or column. -/
def maxOffset : Nat := 4294967295

/-- The number of bytes of some characters. -/
def byteCount (cs : List Char) : Nat := cs.foldr (fun c count => c.utf8Size + count) 0

/-- The range of offsets from `start` up to `stop`, which is not part of it. -/
structure Span where
  start : Nat
  stop : Nat
deriving DecidableEq, Repr, Inhabited

namespace Span

/-- The empty span at an offset. -/
def empty (offset : Nat) : Span := ⟨offset, offset⟩

/-- The number of bytes; there is none if the span ends before it starts. -/
def length? (s : Span) : Option Nat := if s.start ≤ s.stop then some (s.stop - s.start) else none

/-- Whether the span covers no byte. -/
def isEmpty (s : Span) : Bool := s.start = s.stop

/-- Whether the byte at an offset lies in the span. -/
def contains (s : Span) (offset : Nat) : Bool := s.start ≤ offset ∧ offset < s.stop

end Span

/-- A line and a column in bytes, both from 1. -/
structure Location where
  line : Nat
  column : Nat
deriving DecidableEq, Repr, Inhabited

/-- What a search of a sorted table comes to: the index at which the value stands, or else the one at which it would be
put in. -/
inductive SearchResult where
  | found (index : Nat)
  | missing (index : Nat)
deriving DecidableEq, Repr

/-- Looks for a value among the entries from `low` up to `high` of a sorted table: at the middle one, and then in the half
that may still hold it. -/
def searchBetween (table : Array Nat) (value low high : Nat) (inside : high ≤ table.size) : SearchResult :=
  if _ : low < high then
    let middle := low + (high - low) / 2
    if table[middle] = value then .found middle
    else if table[middle] < value then searchBetween table value (middle + 1) high inside
    else searchBetween table value low middle (by omega)
  else .missing low
termination_by high - low

/-- Looks for a value in a sorted table. -/
def search (table : Array Nat) (value : Nat) : SearchResult := searchBetween table value 0 table.size (Nat.le_refl _)

/-- The byte after which a line starts. -/
def lineFeed : UInt8 := 10

/-- Where the lines of a source start, in order; the first starts at 0. -/
structure LineIndex where
  starts : Array Nat
deriving Repr, Inhabited

namespace LineIndex

/-- The starts of the lines after the first, for bytes that begin at `offset`.  Of an offset that is beyond the greatest one
only the lower 32 bits count. -/
def startsAfter : (offset : Nat) → List UInt8 → List Nat
  | _, [] => []
  | offset, b :: rest =>
    if b = lineFeed then (offset % (maxOffset + 1) + 1) :: startsAfter (offset + 1) rest
    else startsAfter (offset + 1) rest

/-- A line starts at 0 and after every line feed. -/
def ofSource (source : String) : LineIndex := ⟨(0 :: startsAfter 0 source.toByteArray.data.toList).toArray⟩

/-- The number of the line of an offset, from 0: the line that starts there, or else the one before the next to start.
There is none before the first start. -/
def line? (index : LineIndex) (offset : Nat) : Option Nat :=
  match search index.starts offset with
  | .found line => some line
  | .missing 0 => none
  | .missing (next + 1) => some next

/-- The location of an offset, also beyond the end of the source.  There is none before the start of its line, nor one whose
line or column is beyond the greatest offset. -/
def location? (index : LineIndex) (offset : Nat) : Option Location := do
  let line ← index.line? offset
  let start ← index.starts[line]?
  if start ≤ offset ∧ line < maxOffset ∧ offset - start < maxOffset then some ⟨line + 1, offset - start + 1⟩ else none

/-- The location of an offset that has one. -/
def location (index : LineIndex) (offset : Nat) : Location := (index.location? offset).getD default

end LineIndex

end GraphQL
