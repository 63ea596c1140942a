import GraphQL.Delivery.Stage

/-!
# The stream of subsequent results

Once the initial result is out, its consumer pulls the subsequent ones.  Each pull takes the work from the inbox,
returns a result as soon as anything released has one, and otherwise runs the work piece by piece, looking for a result
whenever one is done.  After the last result, or when the consumer cancels, all work is dropped and all streams are
closed.
-/

namespace GraphQL

variable {ω ε : Type} [Work ω]

namespace Stage

/-- Runs one piece of work, which goes to those that wait unless it is done. -/
def runOne (run : Runner ω ε) (work : ω) : StageM ω ε Bool := do
  match ← run work with
  | none => return true
  | some work =>
    modify fun s => { s with work := { s.work with waiting := s.work.waiting ++ [work] } }
    return false

/-- Takes the first piece of work that can run. -/
def takeReady : StageM ω ε (Option ω) := do
  let s ← get
  match s.work.ready with
  | [] => return none
  | work :: rest =>
    set { s with work := { s.work with ready := rest } }
    return some work

/-- Runs work that is ready until one piece is done or all have run; says whether one is done. -/
def runUntilDone (run : Runner ω ε) : (count : Nat) → StageM ω ε Bool
  | 0 => return false
  | count + 1 => do
    match ← takeReady with
    | none => return false
    | some work => if ← runOne run work then return true else runUntilDone run count

/-- Runs all work that is ready. -/
def runReady (run : Runner ω ε) : (count : Nat) → StageM ω ε Unit
  | 0 => return ()
  | count + 1 => do
    match ← takeReady with
    | none => return ()
    | some work =>
      let _ ← runOne run work
      runReady run count

/-- Ends the output: the work is dropped and the publisher closed. -/
def finish (s : Stage ω ε) : Stage ω ε := { s.dropTaken.close with outputDone := true }

/-- Ends the output unless it is over: the consumer wants no more. -/
def cancel (s : Stage ω ε) : Stage ω ε := if s.outputDone then s else s.finish

end Stage

/-- What a pull gives. -/
inductive Pulled where
  | result (r : SubsequentResult)
  | ended
  /-- Nothing until time goes on. -/
  | waiting
deriving Repr

namespace Stage

/-- Pulls the next result of an output that is not over; `fuel` bounds how often it is looked for. -/
def pullOpen (run : Runner ω ε) : (fuel : Nat) → StageM ω ε Pulled
  | 0 => failure
  | fuel + 1 => do
    modify takeInbox
    let s ← get
    let (publisher, result) := s.publisher.nextResult?
    set { s with publisher := publisher }
    match result with
    | some r =>
      if !r.hasNext then modify finish
      return .result r
    | none =>
      if !publisher.hasPending then
        modify finish
        return .ended
      else if s.work.isEmpty then
        if publisher.hasReady then pullOpen run fuel
        else
          modify finish
          return .ended
      else if ← runUntilDone run s.work.ready.length then pullOpen run fuel
      else if (← get).publisher.hasReady then pullOpen run fuel
      else return .waiting

/-- Pulls the next result. -/
def pull (run : Runner ω ε) (fuel : Nat) : StageM ω ε Pulled := do
  if (← get).outputDone then return .ended else pullOpen run fuel

end Stage

/-- The answer to a request: one response, or an initial result with more to come. -/
inductive Answer where
  | single (response : Response)
  | incremental (initial : InitialResult)
deriving Repr

namespace Stage

/-- Answers with data: one response if nothing is pending then, and everything else is dropped. -/
def answerData (s : Stage ω ε) (data : Json) : Stage ω ε × Answer :=
  let (publisher, errors) := (s.publisher.publishChildren .initial).takeErrors
  let s := { s with publisher := publisher }
  if publisher.hasPending then (s, .incremental ⟨data, errors, true⟩)
  else (s.closeInbox.dropTaken, .single ⟨some data, errors⟩)

/-- Answers with null because of an error; everything else is dropped. -/
def answerError (s : Stage ω ε) (error : Error) : Stage ω ε × Answer :=
  let s := s.dropTaken
  let (publisher, errors) := s.publisher.takeErrors
  (closeInbox { s with publisher := publisher }, .single ⟨some .null, errors ++ [error]⟩)

end Stage

end GraphQL
