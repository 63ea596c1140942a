import GraphQL.Execution.Job

/-!
# What an execution depends on

The context of an execution does not change: the schema, the resolvers, the document with the operation that is
executed, and its variables.  What execution remembers besides the stage are the collector and how lists are streamed.
-/

namespace GraphQL

/-- What can be set for all executions. -/
structure ExecutionConfig where
  /-- Whether `@defer` and `@stream` are followed. -/
  incrementalDelivery : Bool := true
  /-- Whether fields are traced as they are resolved. -/
  fieldTracing : Bool := false
deriving DecidableEq, Repr, Inhabited

/-- What an execution depends on. -/
structure ExecutionContext where
  schema : Schema
  resolvers : ResolverMap
  config : ExecutionConfig
  document : Document
  operation : Operation
  /-- The name of the root type of the operation. -/
  rootType : String
  rootValue : Json
  /-- What resolvers can look up. -/
  context : Dict Json
  vars : Variables

namespace ExecutionContext

/-- What field collection depends on. -/
def collection (c : ExecutionContext) : CollectionContext :=
  ⟨c.schema, c.document, c.vars, c.operation.kind, c.config.incrementalDelivery⟩

end ExecutionContext

/-- What execution remembers. -/
structure Memory where
  collector : Collector := {}
  /-- How lists are streamed, by the number of the group that asks for the list. -/
  streamUsages : List (Nat × Option StreamUsage) := []
deriving Inhabited

/-- A step of an execution. -/
abbrev ExecM := StageM Task Memory

/-- Why the value of a field cannot be completed. -/
inductive CompletionError where
  | unexpectedNull (info : FieldInfo)
  | unexpectedOutputType (typeName : String)
  | nullLeaf (typeName : String) (value : Json)
  | notIterable (info : FieldInfo)
  | negativeInitialCount
  | streamInSubscription
  | noRuntimeType (abstractType : String) (info : FieldInfo)
  | unknownRuntimeType (abstractType runtimeType : String)
  | impossibleRuntimeType (abstractType runtimeType : String)
  | nonObjectRuntimeType (abstractType runtimeType : String)
  | wrongObjectType (typeName : String) (value : Json)
  | notSingle (typeName : String)
  | notReady (typeName : String)
  | noResolver (typeName fieldName : String)

namespace CompletionError

/-- The sentence for a reason. -/
def message : CompletionError → String
  | unexpectedNull info =>
    "Cannot return null for non-nullable field " ++ info.parentType ++ "." ++ info.fieldName ++ "."
  | unexpectedOutputType typeName =>
    "Cannot complete value of unexpected output type: \"" ++ typeName ++ "\"."
  | nullLeaf typeName value =>
    "Expected `" ++ typeName ++ ".serialize(" ++ value.text ++
      ")` to return non-nullable value, returned: null"
  | notIterable info =>
    "Expected Iterable, but did not find one for field \"" ++ info.parentType ++ "." ++ info.fieldName ++ "\"."
  | negativeInitialCount => "initialCount must be a positive integer"
  | streamInSubscription =>
    "`@stream` directive not supported on subscription operations. " ++
      "Disable `@stream` by setting the `if` argument to `false`."
  | noRuntimeType abstractType info =>
    "Abstract type \"" ++ abstractType ++ "\" must resolve to an Object type at runtime for field \"" ++
      info.parentType ++ "." ++ info.fieldName ++ "\". Either the \"" ++ abstractType ++
      "\" type should provide a \"resolveType\" function or each possible type should provide an \"isTypeOf\" " ++
      "function."
  | unknownRuntimeType abstractType runtimeType =>
    "Abstract type \"" ++ abstractType ++ "\" was resolved to a type \"" ++ runtimeType ++
      "\" that does not exist inside the schema."
  | impossibleRuntimeType abstractType runtimeType =>
    "Runtime Object type \"" ++ runtimeType ++ "\" is not a possible type for \"" ++ abstractType ++ "\"."
  | nonObjectRuntimeType abstractType runtimeType =>
    "Abstract type \"" ++ abstractType ++ "\" was resolved to a non-object type \"" ++ runtimeType ++ "\"."
  | wrongObjectType typeName value =>
    "Expected value of type \"" ++ typeName ++ "\" but got: " ++ value.text ++ "."
  | notSingle typeName => "Expected a single value of type \"" ++ typeName ++ "\" but got a list."
  | notReady typeName => "Expected a resolved value of type \"" ++ typeName ++ "\"."
  | noResolver typeName fieldName =>
    "No resolver for field \"" ++ typeName ++ "." ++ fieldName ++ "\"."

/-- The error that a client gets, before it is located. -/
def toError (e : CompletionError) : Error := .ofMessage e.message

/-- The error that a client gets, with the places of the fields that asked for the value. -/
def toErrorAt (e : CompletionError) (group : FieldGroup) : Error :=
  { e.toError with locations := group.locations }

end CompletionError

/-- Locates an error at a field, unless it is located: it gets the path, and the places of the fields if it has
none. -/
def Error.locate (e : Error) (group : FieldGroup) (path : Path) : Error :=
  if e.isLocated then e
  else
    { e with
      locations := if e.locations.isEmpty then group.locations else e.locations
      path := some path }

end GraphQL
