import GraphQL.Resolution.ItemStream

/-!
# Results of resolvers

A resolver gives a value, a list of results, a result that comes later, or a stream of results.  What comes later has
an outcome that is known but not looked at before its time: first the call of the resolver may still have to be
noticed, then some ticks have to pass.
-/

namespace GraphQL

/-- Why a resolver gives no result. -/
inductive ResolverError where
  | fieldNotFound (name : String)
  | missingArgument (name : String)
  | argumentParse (name reason : String)
  | custom (message : String)
deriving DecidableEq, Repr, Inhabited

namespace ResolverError

/-- The sentence for a reason. -/
def message : ResolverError → String
  | fieldNotFound name => "Field not found: " ++ name
  | missingArgument name => "Missing required argument: " ++ name
  | argumentParse name reason => "Failed to parse argument '" ++ name ++ "': " ++ reason
  | custom message => message

/-- The error that a client gets. -/
def toError (e : ResolverError) : Error := .ofMessage e.message

end ResolverError

/-- What a resolver gives. -/
inductive FieldValue where
  | value (v : Json)
  | list (items : List FieldValue)
  | later (notice : Option Notice) (ticks : Nat) (outcome : Except ResolverError FieldValue)
  | stream (source : ItemStreamOf (Except ResolverError FieldValue))
deriving Inhabited

/-- The outcome of a resolver. -/
abbrev Resolved := Except ResolverError FieldValue

/-- A stream of results of resolvers. -/
abbrev ItemStream := ItemStreamOf Resolved

namespace FieldValue

/-- The value null. -/
def null : FieldValue := value .null

/-- Whether the result is the value null. -/
def isNull : FieldValue → Bool
  | value v => v.isNull
  | _ => false

mutual

/-- The names of the streams that are open in a result; what comes later has opened none. -/
def openStreams : FieldValue → List String
  | .value _ => []
  | .list items => openStreamsOfList items
  | .later .. => []
  | .stream source => source.openName

/-- The names of the streams that are open in results. -/
def openStreamsOfList : List FieldValue → List String
  | [] => []
  | item :: rest => openStreams item ++ openStreamsOfList rest

end

end FieldValue

/-- The names of the streams that are open in an outcome. -/
def Resolved.openStreams : Resolved → List String
  | .error _ => []
  | .ok value => value.openStreams

/-- The names of the streams that are open in what a stream gives. -/
def Polled.openStreams : Polled Resolved → List String
  | .item outcome => outcome.openStreams
  | .ended | .waiting => []

/-- Whether an outcome is an error. -/
def Resolved.isError : Resolved → Bool
  | .error _ => true
  | .ok _ => false

end GraphQL
