import GraphQL.Error

/-!
# Records of incremental delivery

A record stands for something that is delivered as a whole: the initial result, a deferred fragment, a set of fields
that belongs to one or more deferred fragments, or items of a streamed list.  The items of one list share a stream.
-/

namespace GraphQL

/-- The number of a record; the initial result is number zero. -/
structure RecordId where
  index : Nat
deriving DecidableEq, Repr, Inhabited

/-- The number of a stream. -/
structure StreamId where
  index : Nat
deriving DecidableEq, Repr, Inhabited

/-- The number of a close hook. -/
structure HookId where
  index : Nat
deriving DecidableEq, Repr, Inhabited

/-- The initial result. -/
def RecordId.initial : RecordId := ⟨0⟩

/-- What waits for the initial result. -/
structure InitialRecord where
  errors : List Error := []
  children : List RecordId := []
deriving Repr, Inhabited

/-- A deferred fragment. -/
structure FragmentRecord where
  path : Path
  label : Option String
  children : List RecordId := []
  fieldSets : List RecordId := []
  /-- The field sets that are not completed. -/
  unfinished : List RecordId := []
  errors : List Error := []
  filtered : Bool := false
deriving Repr, Inhabited

/-- A set of fields that belongs to deferred fragments and is sent with the first of them. -/
structure FieldSetRecord where
  path : Path
  fragments : List RecordId
  data : Option Json := none
  errors : List Error := []
  sent : Bool := false
deriving Repr, Inhabited

/-- Items of a streamed list. -/
structure ItemsRecord where
  stream : StreamId
  path : Path
  items : List Json := []
  errors : List Error := []
  children : List RecordId := []
  completed : Bool := false
  /-- Nothing of the list comes after this record. -/
  final : Bool := false
  /-- The record turned out to stand for the end of the list, not for items. -/
  endsStream : Bool := false
  filtered : Bool := false
deriving Repr, Inhabited

/-- A record of any kind. -/
inductive Record where
  | initial (record : InitialRecord)
  | fragment (record : FragmentRecord)
  | fieldSet (record : FieldSetRecord)
  | items (record : ItemsRecord)
deriving Repr, Inhabited

/-- Adds an element at the end of a list unless it is there. -/
def addNew {α : Type} [DecidableEq α] (xs : List α) (x : α) : List α :=
  if x ∈ xs then xs else xs ++ [x]

namespace Record

/-- The records that are delivered after this one. -/
def children : Record → List RecordId
  | initial r => r.children
  | fragment r => r.children
  | fieldSet _ => []
  | items r => r.children

/-- Adds a child; a field set has none of its own. -/
def addChild (child : RecordId) : Record → Record
  | initial r => initial { r with children := addNew r.children child }
  | fragment r => fragment { r with children := addNew r.children child }
  | fieldSet r => fieldSet r
  | items r => items { r with children := addNew r.children child }

/-- Adds an error. -/
def addError (error : Error) : Record → Record
  | initial r => initial { r with errors := r.errors ++ [error] }
  | fragment r => fragment { r with errors := r.errors ++ [error] }
  | fieldSet r => fieldSet { r with errors := r.errors ++ [error] }
  | items r => items { r with errors := r.errors ++ [error] }

/-- Whether the record will never be delivered. -/
def isFiltered : Record → Bool
  | fragment r => r.filtered
  | items r => r.filtered
  | _ => false

/-- Keeps the record from being delivered. -/
def setFiltered : Record → Record
  | fragment r => fragment { r with filtered := true }
  | items r => items { r with filtered := true }
  | r => r

end Record

/-- A streamed list. -/
structure StreamRecord where
  path : Path
  label : Option String
  errors : List Error := []
  /-- The hook of the source of the items, if it has one. -/
  hook : Option HookId := none
deriving Repr, Inhabited

end GraphQL
