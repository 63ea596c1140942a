import GraphQL.Document.Basic
import GraphQL.Json.Basic
import GraphQL.Text.Blank

/-!
# Type references

The type of a field, an argument or a variable: a name inside lists and non-null marks.  `TypeRef.read?` reads the
usual notation, with blanks around every part, and refuses a second exclamation mark.
-/

namespace GraphQL

/-- A reference to a type. -/
inductive TypeRef where
  | named (name : String)
  | list (item : TypeRef)
  | nonNull (type : TypeRef)
deriving DecidableEq, Repr, Inhabited

namespace TypeRef

/-- The name inside all lists and non-null marks. -/
def innermost : TypeRef → String
  | named name => name
  | list item => item.innermost
  | nonNull type => type.innermost

/-- Whether the outermost layer is a non-null mark. -/
def isNonNull : TypeRef → Bool
  | nonNull _ => true
  | _ => false

/-- The type without an outermost non-null mark. -/
def nullable : TypeRef → TypeRef
  | nonNull type => type
  | type => type

/-- The usual notation. -/
def text : TypeRef → String
  | named name => name
  | list item => "[" ++ item.text ++ "]"
  | nonNull type => type.text ++ "!"

/-- The layers as objects with one key each. -/
def toJson : TypeRef → Json
  | named name => .object [("Named", .string name)]
  | list item => .object [("List", item.toJson)]
  | nonNull type => .object [("NonNull", type.toJson)]

/-- The reference that a type in a document is. -/
def ofNode : TypeNode → TypeRef
  | .named name => named name.value
  | .list item => list (ofNode item)
  | .nonNull type => nonNull (ofNode type)

/-- Whether the characters are a name: letters, digits and underscores, not a digit first. -/
def isNameText : List Char → Bool
  | [] => false
  | c :: rest => (c.isAlpha || c = '_') && rest.all fun c => c.isAlphanum || c = '_'

/-- Reads a type; every layer takes a character, so `fuel` may be one more than their number. -/
def readChars? : (fuel : Nat) → List Char → Option TypeRef
  | 0, _ => none
  | fuel + 1, cs =>
    let trimmed := Text.trimBlanks cs
    if trimmed.getLast? = some '!' then
      (readChars? fuel trimmed.dropLast).bind fun inner =>
        if inner.isNonNull then none else some (nonNull inner)
    else
      match trimmed with
      | '[' :: rest =>
        if rest.getLast? = some ']' then (readChars? fuel rest.dropLast).map list else none
      | _ => if isNameText trimmed then some (named (String.ofList trimmed)) else none

/-- Reads the usual notation. -/
def read? (text : String) : Option TypeRef :=
  let cs := text.toList
  readChars? (cs.length + 1) cs

end TypeRef

end GraphQL
