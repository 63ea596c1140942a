import GraphQL.Execution.Session

/-!
# Transcripts

What an observer writes down of an execution: the calls of resolvers, the payloads with their times, and the streams
that are closed.  Streams that are closed between two other events are written down together, in the order of their
names.  How the subsequent results are read is up to the consumer, who may cancel or drop them after some.
-/

namespace GraphQL

/-- An entry of a transcript. -/
inductive Event where
  | called (typeName fieldName : String) (path : Path)
  | closed (names : List String)
  | payload (value : Json) (time : Nat)
  /-- The response of an execution that must not wait. -/
  | response (r : Response)
  /-- The consumer cancelled the results, and whether they are over then. -/
  | cancelled (finished : Bool)
  /-- There are no more results, and whether they are over. -/
  | ended (finished : Bool)
  | stalled
deriving Repr

/-- How the payloads of an execution are read. -/
inductive Reading where
  /-- One by one; after so many subsequent results they are cancelled or dropped, if that is wanted. -/
  | stepwise (cancelAfter dropAfter : Option Nat)
  /-- All of them, which counts as one step. -/
  | together
  /-- Without letting time pass. -/
  | now
deriving DecidableEq, Repr

/-- A transcript in the making: the events, the latest first, and the streams that were closed since the latest. -/
structure Transcript where
  events : List Event := []
  closed : List String := []

namespace Transcript

/-- Names in the order of their code points. -/
def sortNames (names : List String) : List String := names.mergeSort fun a b => !(b < a)

/-- Writes down which streams were closed since the latest event, if any. -/
def flush (t : Transcript) : Transcript :=
  if t.closed.isEmpty then t else ⟨.closed (sortNames t.closed) :: t.events, []⟩

/-- Writes down an event. -/
def push (t : Transcript) (event : Event) : Transcript :=
  let t := t.flush
  { t with events := event :: t.events }

/-- Takes what was noticed.  That streams are obtained or come to their ends is not observed. -/
def take (t : Transcript) : Notice → Transcript
  | .called typeName fieldName path => t.push (.called typeName fieldName path)
  | .closed name => { t with closed := name :: t.closed }
  | .opened _ | .ended _ => t

/-- All events in their order. -/
def toList (t : Transcript) : List Event := t.flush.events.reverse

end Transcript

/-- A step of an execution that is observed. -/
abbrev ObservedM := StateT Transcript ExecM

namespace ObservedM

/-- Takes a step and writes down what was noticed. -/
def observe {α : Type} (step : ExecM α) : ObservedM α := do
  let a ← step
  let s ← (get : ExecM (Stage Task Memory))
  (set { s with log := [] } : ExecM Unit)
  modify fun t => s.log.reverse.foldl Transcript.take t
  return a

/-- Writes down an event. -/
def emit (event : Event) : ObservedM Unit := modify fun t => t.push event

/-- Writes down a payload with the time. -/
def emitPayload (value : Json) : ObservedM Unit := do
  let s ← (get : ExecM (Stage Task Memory))
  emit (.payload value s.now)

/-- Whether the results are over. -/
def isOver : ObservedM Bool := do
  let s ← (get : ExecM (Stage Task Memory))
  return s.outputDone

/-- Reads subsequent results one by one. -/
def readResults (c : ExecutionContext) (cancelAfter dropAfter : Option Nat) :
    (fuel : Nat) → (count : Nat) → ObservedM Unit
  | 0, _ => failure
  | fuel + 1, count => do
    if dropAfter = some count then observe (modify Stage.cancel)
    else
      if cancelAfter = some count then
        observe (modify Stage.cancel)
        emit (.cancelled (← isOver))
      match ← observe c.nextResult with
      | .result r =>
        emitPayload r.toJson
        readResults c cancelAfter dropAfter fuel (count + 1)
      | .ended => emit (.ended (← isOver))
      | .waiting => emit .stalled

/-- Executes an operation and reads its payloads. -/
def execute (c : ExecutionContext) : Reading → ObservedM Unit
  | .stepwise cancelAfter dropAfter => do
    match ← observe c.respond with
    | none => emit .stalled
    | some (.single response) => emitPayload response.toJson
    | some (.incremental initial) =>
      emitPayload initial.toJson
      readResults c cancelAfter dropAfter ExecutionContext.limit 0
  | .together => do
    match ← observe c.payloads with
    | none => emit .stalled
    | some payloads => payloads.forM emitPayload
  | .now => do
    let response ← observe c.respondNow
    emit (.response response)

end ObservedM

namespace Executor

/-- The transcript of a request. -/
def transcript? (e : Executor) (r : Request) (reading : Reading) : Option (List Event) :=
  match e.prepare r with
  | .error errors =>
    let response : Response := { errors := errors }
    some [if reading = .now then .response response else .payload response.toJson 0]
  | .ok c => do
    let (((), t), _) ← ((ObservedM.execute c reading).run {}).run c.stage
    return t.toList

end Executor

end GraphQL
