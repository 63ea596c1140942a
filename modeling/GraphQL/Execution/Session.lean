import GraphQL.Execution.Request
import GraphQL.Execution.Run

/-!
# Sessions

A session is the execution of a request from its beginning to its last result.  First comes the answer: the initial
data is run together with the work that it spawns, and time goes on only when neither can go on without it.  Then,
if something was deferred or streamed, each subsequent result is pulled in the same way.  A session is stalled when it
waits for nothing that time can bring; everything that is open is closed then.
-/

namespace GraphQL

namespace Execution

/-- Begins the operation.  The fields of a query are resolved at once; those of a mutation are left to the job. -/
def beginOperation (c : ExecutionContext) : ExecM Progress := do
  let s ← get
  let selections := c.operation.selectionSet.selections
  let (collected, collector) := s.memory.collector.collectFields c.collection c.rootType selections
  set { s with memory := { s.memory with collector := collector } }
  match collected with
  | .error e => return .fail e.toError
  | .ok collected =>
    let deferMap ← addFragments .root .initial collected.newUsages []
    let sets ← addFieldSets .root deferMap collected.newSets
    let fields : ObjectFields := ⟨c.rootType, c.rootValue, .root, collected.fields, .initial, deferMap⟩
    let data ← match c.operation.kind with
      | .mutation => pure (.serial fields [] none collected.fields)
      | _ => selectFields c fields
    spawnFieldSets c fields sets
    return .go data

/-- Runs the initial data, and then all work that is ready, as long as work is spawned. -/
def runInitial (c : ExecutionContext) (fuel : Nat) : (rounds : Nat) → Job → ExecM Ran
  | 0, _ => failure
  | rounds + 1, job => do
    match ← job.run c fuel with
    | .done outcome => return .done outcome
    | .waiting job =>
      Stage.runReady (Task.run c fuel) (← get).work.ready.length
      if (← get).publisher.inbox.isEmpty then return .waiting job
      else
        modify Stage.takeInbox
        runInitial c fuel rounds job

/-- Answers with the outcome of the initial data. -/
def answer (outcome : Except Error Json) : ExecM Answer :=
  modifyGet fun s =>
    match outcome with
    | .ok data => (s.answerData data).swap
    | .error e => (s.answerError e).swap

/-- Drops an execution that waits for its initial data. -/
def dropInitial (job : Job) : ExecM Unit :=
  modify fun s => (s.noteClosed job.openStreams).dropTaken.closeInbox

/-- Runs up to the answer. -/
def awaitAnswer (c : ExecutionContext) (fuel : Nat) : (rounds : Nat) → Job → ExecM (Option Answer)
  | 0, _ => failure
  | rounds + 1, job => do
    match ← runInitial c fuel fuel job with
    | .done outcome => return some (← answer outcome)
    | .waiting job =>
      match (← get).nextTime? job.deadlines with
      | some time =>
        modify fun s => s.advanceTo time
        awaitAnswer c fuel rounds job
      | none =>
        dropInitial job
        return none

/-- Pulls a result, letting time pass for it. -/
def awaitResult (c : ExecutionContext) (fuel : Nat) : (rounds : Nat) → ExecM Pulled
  | 0 => failure
  | rounds + 1 => do
    match ← Stage.pull (Task.run c fuel) fuel with
    | .waiting =>
      match (← get).nextTime? [] with
      | some time =>
        modify fun s => s.advanceTo time
        awaitResult c fuel rounds
      | none =>
        modify Stage.cancel
        return .waiting
    | pulled => return pulled

end Execution

open Execution

/-- Why a request has no answer at once. -/
inductive SyncError where
  | severalResults
  | notFinished
deriving DecidableEq, Repr, Inhabited

namespace SyncError

/-- The sentence for a reason. -/
def message : SyncError → String
  | severalResults =>
    "Executing this GraphQL operation would unexpectedly produce multiple payloads (due to @defer or @stream " ++
      "directive)"
  | notFinished => "GraphQL execution failed to complete synchronously."

/-- The response instead of the answer. -/
def toResponse (e : SyncError) : Response := { errors := [.ofMessage e.message] }

end SyncError

namespace ExecutionContext

/-- How deep jobs lie inside one another, how often work is spawned by work, and how often time goes on, at most. -/
def limit : Nat := 1000000

/-- The stage on which an execution begins. -/
def stage (_ : ExecutionContext) : Stage Task Memory := { memory := {} }

/-- Begins the operation and runs up to the answer; there is none if the execution is stalled. -/
def respond (c : ExecutionContext) : ExecM (Option Answer) := do
  match ← beginOperation c with
  | .done outcome => return some (← answer outcome)
  | .go job => awaitAnswer c limit limit job

/-- Begins the operation and answers without letting time pass.  What is not finished then is dropped. -/
def respondNow (c : ExecutionContext) : ExecM Response := do
  let ran ← match ← beginOperation c with
    | .done outcome => pure (.done outcome)
    | .go job => runInitial c limit limit job
  match ran with
  | .waiting job =>
    dropInitial job
    return SyncError.notFinished.toResponse
  | .done outcome =>
    match ← answer outcome with
    | .single response => return response
    | .incremental _ =>
      modify Stage.cancel
      return SyncError.severalResults.toResponse

/-- The next subsequent result, or `Pulled.waiting` if the execution is stalled. -/
def nextResult (c : ExecutionContext) : ExecM Pulled := awaitResult c limit limit

/-- All results after the initial one, and whether they come to an end. -/
def remainingResults (c : ExecutionContext) : (count : Nat) → ExecM (List SubsequentResult × Bool)
  | 0 => failure
  | count + 1 => do
    match ← c.nextResult with
    | .ended => return ([], true)
    | .waiting => return ([], false)
    | .result r =>
      let (rest, ended) ← c.remainingResults count
      return (r :: rest, ended)

/-- All payloads of an execution, in the order in which they come; none if it is stalled before its end. -/
def payloads (c : ExecutionContext) : ExecM (Option (List Json)) := do
  match ← c.respond with
  | none => return none
  | some (.single response) => return some [response.toJson]
  | some (.incremental initial) =>
    let (results, ended) ← c.remainingResults limit
    return if ended then some (initial.toJson :: results.map SubsequentResult.toJson) else none

end ExecutionContext

end GraphQL
