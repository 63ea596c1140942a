import GraphQL.Source.Path
import GraphQL.Source.Span

/-!
# Errors of a response

An error as a client sees it: a message, the places in the document it belongs to, the path of the value that it
concerns, and a dictionary of extensions.  Parts that are absent are not written.
-/

namespace GraphQL

namespace Location

/-- Both numbers under their names. -/
def toJson (l : Location) : Json :=
  .object [("line", .ofNat l.line), ("column", .ofNat l.column)]

end Location

/-- An entry of the errors of a response. -/
structure Error where
  message : String
  locations : List Location := []
  path : Option Path := none
  extensions : Option (Dict Json) := none
deriving DecidableEq, Repr, Inhabited

namespace Error

/-- An error with a message alone. -/
def ofMessage (message : String) : Error where
  message := message

/-- Puts an entry into the extensions, which come into being with the first one. -/
def withExtension (e : Error) (key : String) (value : Json) : Error :=
  { e with extensions := some (Dict.insert (e.extensions.getD []) key value) }

/-- Puts an error code into the extensions. -/
def withCode (e : Error) (code : String) : Error := e.withExtension "code" (.string code)

/-- An error is located once it has a path. -/
def isLocated (e : Error) : Bool := e.path.isSome

/-- The message, then the parts that are there. -/
def toJson (e : Error) : Json :=
  .object <|
    [("message", .string e.message)] ++
    (if e.locations.isEmpty then [] else [("locations", .array (e.locations.map Location.toJson))]) ++
    (match e.path with
      | some path => [("path", path.toJson)]
      | none => []) ++
    (match e.extensions with
      | some extensions => [("extensions", .object extensions)]
      | none => [])

end Error

end GraphQL
