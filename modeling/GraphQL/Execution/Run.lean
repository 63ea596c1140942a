import GraphQL.Execution.Completion

/-!
# Running jobs and tasks

`Job.run` carries a job as far as it gets without time going on.  Children of a list or object that are few are run in
their order whenever the job runs, and the first error ends them all.  If there are more than `fewChildren`, only those
are run again whose timers are due, in the order in which these started to wait; their outcomes count in the order of
the children, so an error waits for those before it.

`Task.run` does the same for the work beside the initial data, and reports the outcome to the publisher.
-/

namespace GraphQL

/-- How far a job got. -/
inductive Ran where
  | done (outcome : Except Error Json)
  | waiting (job : Job)

/-- Up to this number children of one job are run together. -/
def fewChildren : Nat := 30

namespace Slot

/-- The value of a child that succeeded. -/
def value? {α : Type} : Slot α → Option Json
  | finished (.ok v) => some v
  | _ => none

/-- The deadlines that a child waits for. -/
def deadlines : Slot Job → List Deadline
  | running job => job.deadlines
  | finished _ => []

end Slot

namespace Shape

/-- Puts the values of children together. -/
def assemble : Shape → List Json → Json
  | list, values => .array values
  | object keys, values => .object (keys.zip values)

end Shape

namespace Execution

/-- Runs few children in their order up to the first error, which drops the others. -/
def runFew (run : Job → ExecM Ran) : List (Slot Job) → ExecM (Except Error (List (Slot Job)))
  | [] => return .ok []
  | .finished outcome :: rest => do return (← runFew run rest).map (.finished outcome :: ·)
  | .running job :: rest => do
    match ← run job with
    | .done (.error e) =>
      noteClosed (Job.openStreamsOfSlots rest)
      return .error e
    | .done (.ok v) => return (← runFew run rest).map (.finished (.ok v) :: ·)
    | .waiting job =>
      match ← runFew run rest with
      | .ok rest => return .ok (.running job :: rest)
      | .error e =>
        noteClosed job.openStreams
        return .error e

/-- The error of the first child without a value, if that child is finished. -/
def firstError? : List (Slot Job) → Option Error
  | [] => none
  | .finished (.ok _) :: rest => firstError? rest
  | .finished (.error e) :: _ => some e
  | .running _ :: _ => none

/-- Runs some of many children up to the first error that counts, which drops the others. -/
def runMany (run : Job → ExecM Ran) :
    (order : List Nat) → List (Slot Job) → ExecM (Except Error (List (Slot Job)))
  | [], slots => return .ok slots
  | i :: order, slots =>
    match slots[i]? with
    | some (.running job) => do
      match ← run job with
      | .waiting job => runMany run order (slots.set i (.running job))
      | .done outcome =>
        let slots := slots.set i (.finished outcome)
        match firstError? slots with
        | none => runMany run order slots
        | some e =>
          noteClosed (Job.openStreamsOfSlots slots)
          return .error e
    | _ => runMany run order slots

/-- Which of many children are run: at first all, later those with due timers. -/
def runOrder (now : Nat) (started : Bool) (slots : List (Slot Job)) : List Nat :=
  let indices := List.range slots.length
  if started then Stage.dueFirst now (fun i => ((slots[i]?).map Slot.deadlines).getD []) indices
  else indices

/-- Runs children, and puts their values together once all are there. -/
def runChildren (run : Job → ExecM Ran) (shape : Shape) (started : Bool) (slots : List (Slot Job)) :
    ExecM Ran := do
  let outcome ←
    if slots.length ≤ fewChildren then runFew run slots
    else runMany run (runOrder (← get).now started slots) slots
  match outcome with
  | .error e => return .done (.error e)
  | .ok slots =>
    match slots.mapM Slot.value? with
    | some values => return .done (.ok (shape.assemble values))
    | none => return .waiting (.gather shape true slots)

/-- Takes the first items of a stream, up to those that are streamed.  Each round takes an item, so `count` may be one
more than the steps of the stream. -/
def takeItems (itemType : TypeRef) (site : Site) (usage : Option StreamUsage) :
    (count : Nat) → ItemStream → (itemsReversed : List Job) → ExecM (Except Error Job)
  | 0, source, items => return .ok (.iterate itemType site usage source items)
  | count + 1, source, items => do
    let index := items.length
    let gathered := Job.gather .list false (items.reverse.map .running)
    match usage.filter (·.initialCount ≤ index) with
    | some usage =>
      spawnFetcher itemType site usage source index
      return .ok gathered
    | none =>
      let name := source.openName
      match ← pollStream source with
      | (source, .waiting) => return .ok (.iterate itemType site usage source items)
      | (_, .ended) =>
        noteEnded name
        return .ok gathered
      | (_, .item (.error e)) =>
        noteEnded name
        noteClosed (Job.openStreamsOfJobs items)
        return .error (e.toError.locate site.group site.path)
      | (source, .item (.ok item)) =>
        takeItems itemType site usage count source (itemJob itemType site index item :: items)

end Execution

open Execution

namespace Job

/-- Runs a job until it waits or has its outcome; `fuel` bounds how deep jobs lie inside one another. -/
def run (c : ExecutionContext) : (fuel : Nat) → Job → ExecM Ran
  | 0, _ => failure
  | fuel + 1, job => do
    let goOn : Progress → ExecM Ran
      | .done outcome => return .done outcome
      | .go job => run c fuel job
    match job with
    | .failed e => return .done (.error e)
    | .field type site value =>
      match ← run c fuel value with
      | .waiting value => return .waiting (.field type site value)
      | .done (.ok v) => return .done (.ok v)
      | .done (.error e) => return .done (← absorb type site e)
    | .complete type site value => goOn (← completeValue c type site value)
    | .await type site timer outcome =>
      match ← pollTimer timer, outcome with
      | some timer, _ => return .waiting (.await type site timer outcome)
      | none, .error e => return .done (.error e.toError)
      | none, .ok value =>
        noteOpened value.openStreams
        run c fuel (.complete type site value)
    | .nonNull info value =>
      match ← run c fuel value with
      | .waiting value => return .waiting (.nonNull info value)
      | .done (.error e) => return .done (.error e)
      | .done (.ok v) =>
        if v.isNull then return .done (.error (CompletionError.unexpectedNull info).toError)
        else return .done (.ok v)
    | .gather shape started children => runChildren (run c fuel) shape started children
    | .iterate type site usage source items =>
      match ← takeItems type site usage (source.steps.length + 1) source items with
      | .error e => return .done (.error e)
      | .ok (.iterate type site usage source items) =>
        return .waiting (.iterate type site usage source items)
      | .ok job => run c fuel job
    | .select fields => run c fuel (← selectFields c fields)
    | .serial fields done none [] =>
      let _ := fields
      return .done (.ok (.object done))
    | .serial fields done none ((key, group) :: rest) =>
      match ← fieldJob c fields key group with
      | none => run c fuel (.serial fields done none rest)
      | some job => run c fuel (.serial fields done (some (key, job)) rest)
    | .serial fields done (some (key, job)) rest =>
      match ← run c fuel job with
      | .waiting job => return .waiting (.serial fields done (some (key, job)) rest)
      | .done (.error e) => return .done (.error e)
      | .done (.ok v) => run c fuel (.serial fields (done ++ [(key, v)]) none rest)

end Job

namespace Execution

/-- Reports the end of a stream's items in the order in which they come.  Each round takes an item, so `count` may be
one more than the steps of the stream. -/
def fetchItems : (count : Nat) → Fetcher → ExecM (Option Task)
  | 0, f => return some (.fetch f)
  | count + 1, f => do
    let (source, polled) ← pollStream f.source
    let f := { f with source := source }
    match polled with
    | .waiting => return some (.fetch f)
    | polled =>
      if source.finished then modify fun s => s.retire f.hook
      if (← get).publisher.streamHasErrors f.stream then
        noteClosed polled.openStreams
        publishUnit fun p => p.retireItems f.record
        modify fun s => s.fire f.hook
        return none
      else
        match polled with
        | .item (.ok item) =>
          let path := f.path.index f.index
          spawn (.item f.path f.record (streamedItemJob f.itemType f.group f.info path f.record item))
          let index := f.index + 1
          let next ← publish fun p => p.addItems f.stream (f.path.index index) f.record
          fetchItems count { f with index := index, record := next }
        | .item (.error e) =>
          publishAndClose fun p => p.filter f.path f.record
          publishAndClose fun p => p.failItems f.record (e.toError.locate f.group f.path)
          return none
        | _ =>
          publishUnit fun p => (p.setEnd f.record).completeItems f.record []
          return none

end Execution

namespace Task

/-- Runs a task until it waits or is done. -/
def run (c : ExecutionContext) (fuel : Nat) (task : Task) : ExecM (Option Task) := do
  match task with
  | .fieldSet path id data =>
    match ← data.run c fuel with
    | .waiting data => return some (.fieldSet path id data)
    | .done (.ok v) =>
      publishUnit fun p => p.completeFieldSet id v
      return none
    | .done (.error e) =>
      publishAndClose fun p => p.filter path id
      publishUnit fun p => p.failFieldSet id e
      return none
  | .item listPath id value =>
    match ← value.run c fuel with
    | .waiting value => return some (.item listPath id value)
    | .done (.ok v) =>
      publishUnit fun p => p.completeItems id [v]
      return none
    | .done (.error e) =>
      publishAndClose fun p => p.filter listPath id
      publishAndClose fun p => p.failItems id e
      return none
  | .fetch f => fetchItems (f.source.steps.length + 1) f

end Task

end GraphQL
