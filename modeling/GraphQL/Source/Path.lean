import GraphQL.Json.Basic

/-!
# Response paths

A path leads from the root of a response to a value in it, by the keys of objects and the indices of lists.
-/

namespace GraphQL

/-- One step of a path. -/
inductive PathSegment where
  | key (name : String)
  | index (position : Nat)
deriving DecidableEq, Repr, Inhabited

namespace PathSegment

/-- The key as it is, or the index in digits. -/
def text : PathSegment → String
  | key name => name
  | index position => toString position

/-- A key as a string, an index as a number. -/
def toJson : PathSegment → Json
  | key name => .string name
  | index position => .ofNat position

end PathSegment

/-- The steps from the root of the response. -/
structure Path where
  segments : List PathSegment
deriving DecidableEq, Repr, Inhabited

namespace Path

/-- The path of the whole response. -/
def root : Path := ⟨[]⟩

/-- One step further, to a key. -/
def key (p : Path) (name : String) : Path := ⟨p.segments ++ [.key name]⟩

/-- One step further, to an index. -/
def index (p : Path) (position : Nat) : Path := ⟨p.segments ++ [.index position]⟩

/-- The last step. -/
def last? (p : Path) : Option PathSegment := p.segments.getLast?

/-- Whether the path leads to an item of a list. -/
def endsWithIndex (p : Path) : Bool :=
  match p.last? with
  | some (.index _) => true
  | _ => false

/-- Whether the path leads to the value at `above` or to something below it. -/
def startsWith (p above : Path) : Bool := above.segments.isPrefixOf p.segments

/-- The number of steps. -/
def length (p : Path) : Nat := p.segments.length

/-- The steps with points between them. -/
def text (p : Path) : String := ".".intercalate (p.segments.map PathSegment.text)

/-- The array of the steps. -/
def toJson (p : Path) : Json := .array (p.segments.map PathSegment.toJson)

end Path

end GraphQL
