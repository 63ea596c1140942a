import GraphQL.Schema.Basic

/-!
# Input objects

How the fields of an input object are put together, whatever they are read from: in the order of the definition,
each one read at its type if it is there, else with its default, and left out if it has none and may be null.

`TypeRef.peel` is the other part that all readers of input share: non-null marks are looked through, and where a
list is wanted a value that is no list counts as a list of one.
-/

namespace GraphQL

/-- The values of the variables of an operation, in the order of their definitions. -/
abbrev Variables := Dict Json

namespace InputObjectDef

/-- Puts the fields together.  `read?` gives the reader of a field that is there, and `missing` is the outcome for a
field that has to be there and is not. -/
def assemble {m : Type → Type} [Monad m] (d : InputObjectDef) (read? : String → Option (TypeRef → m Json))
    (missing : InputFieldDef → m Json) : m Json := do
  let entries ← (Dict.values d.fields).mapM fun field =>
    match read? field.name, field.default with
    | some read, _ => do return some (field.name, ← read field.type)
    | none, some default => return some (field.name, default)
    | none, none =>
      if field.type.isNonNull then do return some (field.name, ← missing field) else return none
  return .object (entries.filterMap fun e => e)

end InputObjectDef

namespace TypeRef

/-- Reads a value that is not null at a type: `atName` reads it at a named type, and `atItems`, which only lists
have, reads its items at the type of the items. -/
def peel {m : Type → Type} [Monad m] (atName : String → m Json) (atItems : Option (TypeRef → m Json)) :
    TypeRef → m Json
  | .nonNull type => peel atName atItems type
  | .list item =>
    match atItems with
    | some read => read item
    | none => do return .array [← peel atName none item]
  | .named name => atName name

end TypeRef

end GraphQL
