import GraphQL.Proofs.Execution.Course

/-!
# Watching an execution

Some functions of an execution are meant for some arguments only: fields are resolved of objects, objects are completed
by object types, and a single value is taken from a result that is there.  A value of a type that is no output type is
refused with an error that a built schema should rule out.  `Watched` is the execution with a look at each such call
(`Watched.Call`).  It has no outcome as soon as a call is made that the schema does not allow (`Schema.allows`), and does
the same as the execution otherwise.
-/

namespace GraphQL

open Execution

/-- A call that is meant for some arguments only. -/
inductive Watched.Call where
  /-- The refusal of a value because its type is no output type. -/
  | unexpectedOutputType (typeName : String)
  /-- The completion of an object. -/
  | completeObject (typeName : String)
  /-- The resolution of a field. -/
  | fieldJob (parentType : String)
  /-- The single value of a result. -/
  | singleValue (value : FieldValue)

/-- Whether a result comes later. -/
def FieldValue.isLater : FieldValue → Bool
  | later .. => true
  | _ => false

/-- The calls that are meant: no type is unexpected, objects have object types, and results are there. -/
def Schema.allows (s : Schema) : Watched.Call → Bool
  | .unexpectedOutputType _ => false
  | .completeObject typeName => s.typeKind? typeName = some .object
  | .fieldJob parentType => s.typeKind? parentType = some .object
  | .singleValue value => !value.isLater

namespace Watched

variable (c : ExecutionContext)

/-- Goes on only if the call is allowed. -/
def watch (call : Call) : ExecM Unit := if c.schema.allows call then pure () else failure

/-! ### Completion -/

/-- `Execution.singleValue`, which is watched. -/
def singleValue (value : FieldValue) (typeName : String) : ExecM (Except Error Json) := do
  watch c (.singleValue value)
  Execution.singleValue value typeName

/-- `Execution.completeLeaf` with calls that are watched. -/
def completeLeaf (typeName : String) (value : FieldValue) : ExecM (Except Error Json) := do
  match ← singleValue c value typeName with
  | .error e => return .error e
  | .ok v =>
    match c.schema.serializeLeaf typeName v with
    | .error e => return .error (.ofMessage e.message)
    | .ok serialized =>
      if serialized.isNull then return .error (CompletionError.nullLeaf typeName v).toError
      else return .ok serialized

/-- `Execution.fieldJob`, which is watched. -/
def fieldJob (o : ObjectFields) (key : String) (group : FieldGroup) : ExecM (Option Job) := do
  watch c (.fieldJob o.typeName)
  Execution.fieldJob c o key group

/-- `Execution.fieldJobs` with calls that are watched. -/
def fieldJobs (o : ObjectFields) : GroupedFieldSet → ExecM (List (String × Job))
  | [] => return []
  | (key, group) :: rest => do
    match ← fieldJob c o key group with
    | none => fieldJobs o rest
    | some job => return (key, job) :: (← fieldJobs o rest)

/-- `Execution.selectFields` with calls that are watched. -/
def selectFields (o : ObjectFields) : ExecM Job := do
  let jobs ← fieldJobs c o o.fields
  return .gather (.object (jobs.map (·.1))) false (jobs.map fun j => .running j.2)

/-- `Execution.spawnFieldSets` with calls that are watched. -/
def spawnFieldSets (o : ObjectFields) : List (NewFieldSet × RecordId) → ExecM Unit
  | [] => return ()
  | (set, id) :: rest => do
    let fields : ObjectFields := { o with fields := set.fields, record := id }
    let job ← if set.initiatesDefer then pure (.select fields) else selectFields c fields
    spawn (.fieldSet o.path id job)
    spawnFieldSets o rest

/-- `Execution.completeObject`, which is watched, with calls that are. -/
def completeObject (typeName : String) (site : Site) (value : Json) : ExecM Progress := do
  watch c (.completeObject typeName)
  let isOfType := match Dict.get? c.resolvers.isTypeOf typeName with
    | some test => test value c.context
    | none => true
  if !isOfType then return .fail ((CompletionError.wrongObjectType typeName value).toErrorAt site.group)
  else
    let s ← get
    let (collected, collector) := s.memory.collector.collectSubfields c.collection typeName site.group
    set { s with memory := { s.memory with collector := collector } }
    match collected with
    | .error e => return .fail e.toError
    | .ok collected =>
      let deferMap ← addFragments site.path site.record collected.newUsages site.deferMap
      let sets ← addFieldSets site.path deferMap collected.newSets
      let fields : ObjectFields := ⟨typeName, value, site.path, collected.fields, site.record, deferMap⟩
      let data ← selectFields c fields
      spawnFieldSets c fields sets
      return .go data

/-- `Execution.completeNamed` with calls that are watched, and a look at the refusal of a type. -/
def completeNamed (typeName : String) (site : Site) (value : FieldValue) : ExecM Progress := do
  match c.schema.typeKind? typeName with
  | some .scalar | some .enum => return .done (← completeLeaf c typeName value)
  | some .interface | some .union =>
    match ← singleValue c value typeName with
    | .error e => return .fail e
    | .ok v =>
      match runtimeType c typeName v site with
      | .error e => return .fail e
      | .ok runtimeType => completeObject c runtimeType site v
  | some .object =>
    match ← singleValue c value typeName with
    | .error e => return .fail e
    | .ok v => completeObject c typeName site v
  | _ =>
    watch c (.unexpectedOutputType typeName)
    noteClosed value.openStreams
    return .fail (CompletionError.unexpectedOutputType typeName).toError

/-- `Execution.completeValue` with calls that are watched. -/
def completeValue (type : TypeRef) (site : Site) (value : FieldValue) : ExecM Progress := do
  match value, type with
  | .later notice ticks outcome, _ =>
    match notice with
    | some n => modify fun s => s.noteCall n
    | none => pure ()
    return .go (.await type site (.fresh ticks) outcome)
  | value, .nonNull inner => return .go (.nonNull site.info (.complete inner site value))
  | value, .list itemType =>
    if value.isNull then return .done (.ok .null) else completeList c itemType site value
  | value, .named typeName =>
    if value.isNull then return .done (.ok .null) else completeNamed c typeName site value

/-! ### Jobs and tasks -/

/-- `Job.run` with calls that are watched. -/
def run : (fuel : Nat) → Job → ExecM Ran
  | 0, _ => failure
  | fuel + 1, job => do
    let goOn : Progress → ExecM Ran
      | .done outcome => return .done outcome
      | .go job => run fuel job
    match job with
    | .failed e => return .done (.error e)
    | .field type site value =>
      match ← run fuel value with
      | .waiting value => return .waiting (.field type site value)
      | .done (.ok v) => return .done (.ok v)
      | .done (.error e) => return .done (← absorb type site e)
    | .complete type site value => goOn (← completeValue c type site value)
    | .await type site timer outcome =>
      match ← pollTimer timer, outcome with
      | some timer, _ => return .waiting (.await type site timer outcome)
      | none, .error e => return .done (.error e.toError)
      | none, .ok value =>
        noteOpened value.openStreams
        run fuel (.complete type site value)
    | .nonNull info value =>
      match ← run fuel value with
      | .waiting value => return .waiting (.nonNull info value)
      | .done (.error e) => return .done (.error e)
      | .done (.ok v) =>
        if v.isNull then return .done (.error (CompletionError.unexpectedNull info).toError)
        else return .done (.ok v)
    | .gather shape started children => runChildren (run fuel) shape started children
    | .iterate type site usage source items =>
      match ← takeItems type site usage (source.steps.length + 1) source items with
      | .error e => return .done (.error e)
      | .ok (.iterate type site usage source items) =>
        return .waiting (.iterate type site usage source items)
      | .ok job => run fuel job
    | .select fields => run fuel (← selectFields c fields)
    | .serial _ done none [] => return .done (.ok (.object done))
    | .serial fields done none ((key, group) :: rest) =>
      match ← fieldJob c fields key group with
      | none => run fuel (.serial fields done none rest)
      | some job => run fuel (.serial fields done (some (key, job)) rest)
    | .serial fields done (some (key, job)) rest =>
      match ← run fuel job with
      | .waiting job => return .waiting (.serial fields done (some (key, job)) rest)
      | .done (.error e) => return .done (.error e)
      | .done (.ok v) => run fuel (.serial fields (done ++ [(key, v)]) none rest)

/-- `Task.run` with calls that are watched. -/
def runTask (fuel : Nat) (task : Task) : ExecM (Option Task) := do
  match task with
  | .fieldSet path id data =>
    match ← run c fuel data with
    | .waiting data => return some (.fieldSet path id data)
    | .done (.ok v) =>
      publishUnit fun p => p.completeFieldSet id v
      return none
    | .done (.error e) =>
      publishAndClose fun p => p.filter path id
      publishUnit fun p => p.failFieldSet id e
      return none
  | .item listPath id value =>
    match ← run c fuel value with
    | .waiting value => return some (.item listPath id value)
    | .done (.ok v) =>
      publishUnit fun p => p.completeItems id [v]
      return none
    | .done (.error e) =>
      publishAndClose fun p => p.filter listPath id
      publishAndClose fun p => p.failItems id e
      return none
  | .fetch f => fetchItems (f.source.steps.length + 1) f

/-! ### Sessions -/

/-- `Execution.beginOperation` with calls that are watched. -/
def beginOperation : ExecM Progress := do
  let s ← get
  let selections := c.operation.selectionSet.selections
  let (collected, collector) := s.memory.collector.collectFields c.collection c.rootType selections
  set { s with memory := { s.memory with collector := collector } }
  match collected with
  | .error e => return .fail e.toError
  | .ok collected =>
    let deferMap ← addFragments .root .initial collected.newUsages []
    let sets ← addFieldSets .root deferMap collected.newSets
    let fields : ObjectFields := ⟨c.rootType, c.rootValue, .root, collected.fields, .initial, deferMap⟩
    let data ← match c.operation.kind with
      | .mutation => pure (.serial fields [] none collected.fields)
      | _ => selectFields c fields
    spawnFieldSets c fields sets
    return .go data

/-- `Execution.runInitial` with calls that are watched. -/
def runInitial (fuel : Nat) : (rounds : Nat) → Job → ExecM Ran
  | 0, _ => failure
  | rounds + 1, job => do
    match ← run c fuel job with
    | .done outcome => return .done outcome
    | .waiting job =>
      Stage.runReady (runTask c fuel) (← get).work.ready.length
      if (← get).publisher.inbox.isEmpty then return .waiting job
      else
        modify Stage.takeInbox
        runInitial fuel rounds job

/-- `Execution.awaitAnswer` with calls that are watched. -/
def awaitAnswer (fuel : Nat) : (rounds : Nat) → Job → ExecM (Option Answer)
  | 0, _ => failure
  | rounds + 1, job => do
    match ← runInitial c fuel fuel job with
    | .done outcome => return some (← answer outcome)
    | .waiting job =>
      match (← get).nextTime? job.deadlines with
      | some time =>
        modify fun s => s.advanceTo time
        awaitAnswer fuel rounds job
      | none =>
        dropInitial job
        return none

/-- `ExecutionContext.respondWith` with calls that are watched. -/
def respondWith (fuel : Nat) : ExecM (Option Answer) := do
  match ← beginOperation c with
  | .done outcome => return some (← answer outcome)
  | .go job => awaitAnswer c fuel fuel job

/-- `ExecutionContext.respondNow` with calls that are watched. -/
def respondNow : ExecM Response := do
  let ran ← match ← beginOperation c with
    | .done outcome => pure (.done outcome)
    | .go job => runInitial c ExecutionContext.limit ExecutionContext.limit job
  match ran with
  | .waiting job =>
    dropInitial job
    return SyncError.notFinished.toResponse
  | .done outcome =>
    match ← answer outcome with
    | .single response => return response
    | .incremental _ =>
      modify Stage.cancel
      return SyncError.severalResults.toResponse

end Watched

end GraphQL
