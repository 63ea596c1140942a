import GraphQL.Error

/-!
# Payloads

What a client receives: one response, or an initial result followed by subsequent ones.  A subsequent result holds
incremental entries, the data of deferred fragments and the items of streamed lists, and tells which fragments and
lists are completed.  Empty lists and absent labels are not written.
-/

namespace GraphQL

/-- Errors under their name, unless there are none. -/
def Error.fieldOf (errors : List Error) : List (String × Json) :=
  if errors.isEmpty then [] else [("errors", .array (errors.map Error.toJson))]

/-- A label under its name, if there is one. -/
def Json.labelField : Option String → List (String × Json)
  | some label => [("label", .string label)]
  | none => []

/-- A whole response.  A request that was rejected has no data; null data is present. -/
structure Response where
  data : Option Json := none
  errors : List Error := []
deriving DecidableEq, Repr, Inhabited

namespace Response

/-- The data, then the errors. -/
def toJson (r : Response) : Json :=
  .object <|
    (match r.data with
      | some data => [("data", data)]
      | none => []) ++ Error.fieldOf r.errors

end Response

/-- The first of several results. -/
structure InitialResult where
  data : Json
  errors : List Error := []
  hasNext : Bool
deriving DecidableEq, Repr, Inhabited

namespace InitialResult

/-- The data, the errors, and whether more follows. -/
def toJson (r : InitialResult) : Json :=
  .object ([("data", r.data)] ++ Error.fieldOf r.errors ++ [("hasNext", .bool r.hasNext)])

end InitialResult

/-- The data of a deferred fragment at a path. -/
structure DeferEntry where
  data : Json
  path : Path
  label : Option String := none
  errors : List Error := []
deriving DecidableEq, Repr, Inhabited

/-- Items of a streamed list, from the index at the end of the path on. -/
structure StreamEntry where
  items : List Json
  path : Path
  label : Option String := none
  errors : List Error := []
deriving DecidableEq, Repr, Inhabited

/-- An entry of a subsequent result that carries data. -/
inductive IncrementalEntry where
  | defer (entry : DeferEntry)
  | stream (entry : StreamEntry)
deriving DecidableEq, Repr, Inhabited

namespace IncrementalEntry

/-- The data or items, the path, the label and the errors. -/
def toJson : IncrementalEntry → Json
  | defer e =>
    .object ([("data", e.data), ("path", e.path.toJson)] ++ Json.labelField e.label ++ Error.fieldOf e.errors)
  | stream e =>
    .object ([("items", .array e.items), ("path", e.path.toJson)] ++ Json.labelField e.label ++
      Error.fieldOf e.errors)

end IncrementalEntry

/-- A fragment or list that is completed, with errors if it failed. -/
structure CompletedEntry where
  path : Path
  label : Option String := none
  errors : List Error := []
deriving DecidableEq, Repr, Inhabited

namespace CompletedEntry

/-- The path, the label and the errors. -/
def toJson (e : CompletedEntry) : Json :=
  .object ([("path", e.path.toJson)] ++ Json.labelField e.label ++ Error.fieldOf e.errors)

end CompletedEntry

/-- A result after the initial one. -/
structure SubsequentResult where
  incremental : List IncrementalEntry := []
  completed : List CompletedEntry := []
  hasNext : Bool
deriving DecidableEq, Repr, Inhabited

namespace SubsequentResult

/-- The entries, and whether more follows. -/
def toJson (r : SubsequentResult) : Json :=
  .object <|
    (if r.incremental.isEmpty then []
      else [("incremental", .array (r.incremental.map IncrementalEntry.toJson))]) ++
    (if r.completed.isEmpty then [] else [("completed", .array (r.completed.map CompletedEntry.toJson))]) ++
    [("hasNext", .bool r.hasNext)]

end SubsequentResult

end GraphQL
