import GraphQL.Coercion.Variables
import GraphQL.Execution.Context

/-!
# Requests

A request asks for one operation of a document to be executed.  `Executor.prepare` finds the operation and its root
type, and reads the variables; a request for which this fails is rejected before anything is executed.
-/

namespace GraphQL

/-- A request. -/
structure Request where
  document : Document
  /-- The name of the operation; it may be left out if there is only one. -/
  operationName : Option String := none
  /-- The inputs for the variables. -/
  variableInputs : Dict Json := []
  rootValue : Json := .object []
  /-- What resolvers can look up. -/
  context : Dict Json := []

/-- Why a request is rejected, problems of variables aside. -/
inductive RequestError where
  | nameNeeded
  | unknownOperation (name : String)
  | noOperation
  | noRootType (kind : OperationKind)
deriving DecidableEq, Repr, Inhabited

namespace RequestError

/-- The sentence for a reason. -/
def message : RequestError → String
  | nameNeeded => "Must provide operation name if query contains multiple operations."
  | unknownOperation name => "Unknown operation named \"" ++ name ++ "\"."
  | noOperation => "Must provide an operation."
  | noRootType kind => "Schema is not configured to execute " ++ kind.text ++ " operation."

/-- The error that a client gets. -/
def toError (e : RequestError) : Error := .ofMessage e.message

end RequestError

namespace Document

/-- The operation that is asked for.  Of several with the name it is the last one; without a name there must be
exactly one operation. -/
def select (d : Document) (name : Option String) : Except RequestError Operation :=
  match name with
  | some name =>
    match (d.operations.filter fun o => (o.name.map Name.value) = some name).getLast? with
    | some operation => .ok operation
    | none => .error (.unknownOperation name)
  | none =>
    match d.operations with
    | [] => .error .noOperation
    | [operation] => .ok operation
    | _ => .error .nameNeeded

end Document

/-- What executes requests: a schema and the resolvers of its fields. -/
structure Executor where
  schema : Schema
  resolvers : ResolverMap := {}
  config : ExecutionConfig := {}

namespace Executor

/-- What the execution of a request depends on, or the errors with which the request is rejected. -/
def prepare (e : Executor) (r : Request) : Except (List Error) ExecutionContext := do
  let operation ← (r.document.select r.operationName).mapError fun err => [err.toError]
  match e.schema.rootName? operation.kind with
  | none => .error [(RequestError.noRootType operation.kind).toError]
  | some rootType =>
    let vars ← variableValues e.schema operation.variableDefs r.variableInputs
    return ⟨e.schema, e.resolvers, e.config, r.document, operation, rootType, r.rootValue, r.context, vars⟩

end Executor

end GraphQL
