import GraphQL.Proofs.Execution.Course
import GraphQL.Proofs.Execution.Recollection

/-!
# Variations of an execution

An execution can be varied in three ways (`Variation`).  A forgetful one looks for nothing among what was collected or found
out before: it collects the fields below every value anew, and finds out for every list how it is streamed.  A careful one
goes on only if what it remembers for a group is what it would find anew.  A strict one goes on only if the uses of `@defer`
that it reports stand in the initial result or in fragments that have records, and if each set of fields that it reports
belongs to fragments that have records.

A variation cannot be seen (`Variation.Unseen`) if the execution gives the same answer, and its consumer sees the same
results, at the same times, with the same notices in between, whatever it does (`Act`).
-/

namespace GraphQL

open Execution

/-- How an execution is varied. -/
structure Variation where
  /-- Nothing is looked for among what was collected or found out before. -/
  forgetful : Bool := false
  /-- It goes on only if what is remembered for a group is what would be found anew. -/
  careful : Bool := false
  /-- It goes on only if what is deferred belongs to fragments that have records. -/
  strict : Bool := false

/-- The use of `@defer` stands in the initial result, or in a fragment that has a record. -/
def DeferUsage.isRooted (usage : DeferUsage) (deferMap : DeferMap) : Bool :=
  usage.ancestors.head?.any fun id => id = 0 || (deferMap.get? id).isSome

/-- The set has a target, and each of them is a fragment that has a record. -/
def NewFieldSet.isRooted (set : NewFieldSet) (deferMap : DeferMap) : Bool :=
  !set.targets.targets.isEmpty && set.targets.targets.all fun t =>
    match t with
    | .initial => false
    | .deferred usage => (deferMap.get? usage.id).isSome

noncomputable section

namespace Variation

variable (v : Variation) (c : ExecutionContext)

/-- Forgets everything but the numbers that are free, if the execution is forgetful. -/
def forget : ExecM Unit := if v.forgetful then modify fun s => { s with memory := s.memory.forget } else pure ()

open Classical in
/-- Goes on only if what is remembered for a group is what would be found anew, if the execution is careful. -/
def compare (g : FieldGroup) : ExecM Unit := do
  let s ← get
  if v.careful ∧ ¬ s.memory.Suits c g then failure

/-- Goes on only if something holds, if the execution is strict. -/
def insist (holds : Bool) : ExecM Unit := if v.strict && !holds then failure else pure ()

/-! ### Completion -/

/-- `Execution.addFragments` with a look at each use of `@defer`. -/
def addFragments (path : Path) (record : RecordId) (usages : List DeferUsage) (deferMap : DeferMap) : ExecM DeferMap :=
  usages.foldlM (fun map usage => do
    v.insist (usage.isRooted map)
    Execution.addFragments path record [usage] map) deferMap

/-- `Execution.addFieldSets` with a look at the sets. -/
def addFieldSets (path : Path) (deferMap : DeferMap) (sets : List NewFieldSet) : ExecM (List (NewFieldSet × RecordId)) := do
  v.insist (sets.all (·.isRooted deferMap))
  Execution.addFieldSets path deferMap sets

/-- `Execution.completeObject`, which is varied. -/
def completeObject (typeName : String) (site : Site) (value : Json) : ExecM Progress := do
  let isOfType := match Dict.get? c.resolvers.isTypeOf typeName with
    | some test => test value c.context
    | none => true
  if !isOfType then return .fail ((CompletionError.wrongObjectType typeName value).toErrorAt site.group)
  else
    v.forget
    v.compare c site.group
    let s ← get
    let (collected, collector) := s.memory.collector.collectSubfields c.collection typeName site.group
    set { s with memory := { s.memory with collector := collector } }
    match collected with
    | .error e => return .fail e.toError
    | .ok collected =>
      let deferMap ← v.addFragments site.path site.record collected.newUsages site.deferMap
      let sets ← v.addFieldSets site.path deferMap collected.newSets
      let fields : ObjectFields := ⟨typeName, value, site.path, collected.fields, site.record, deferMap⟩
      let data ← selectFields c fields
      spawnFieldSets c fields sets
      return .go data

/-- `Execution.completeList`, which is varied. -/
def completeList (itemType : TypeRef) (site : Site) (value : FieldValue) : ExecM Progress := do
  v.forget
  v.compare c site.group
  Execution.completeList c itemType site value

/-- `Execution.completeNamed`, which is varied. -/
def completeNamed (typeName : String) (site : Site) (value : FieldValue) : ExecM Progress := do
  match c.schema.typeKind? typeName with
  | some .interface | some .union =>
    match ← singleValue value typeName with
    | .error e => return .fail e
    | .ok parent =>
      match runtimeType c typeName parent site with
      | .error e => return .fail e
      | .ok runtimeType => v.completeObject c runtimeType site parent
  | some .object =>
    match ← singleValue value typeName with
    | .error e => return .fail e
    | .ok parent => v.completeObject c typeName site parent
  | _ => Execution.completeNamed c typeName site value

/-- `Execution.completeValue`, which is varied. -/
def completeValue (type : TypeRef) (site : Site) (value : FieldValue) : ExecM Progress := do
  match value, type with
  | .later .., _ => Execution.completeValue c type site value
  | value, .nonNull _ => Execution.completeValue c type site value
  | value, .list itemType =>
    if value.isNull then return .done (.ok .null) else v.completeList c itemType site value
  | value, .named typeName =>
    if value.isNull then return .done (.ok .null) else v.completeNamed c typeName site value

/-! ### Jobs and tasks -/

/-- `Job.run`, which is varied. -/
def run : (fuel : Nat) → Job → ExecM Ran
  | 0, _ => failure
  | fuel + 1, job => do
    let goOn : Progress → ExecM Ran
      | .done outcome => return .done outcome
      | .go job => run fuel job
    match job with
    | .failed e => return .done (.error e)
    | .field type site value =>
      match ← run fuel value with
      | .waiting value => return .waiting (.field type site value)
      | .done (.ok result) => return .done (.ok result)
      | .done (.error e) => return .done (← absorb type site e)
    | .complete type site value => goOn (← v.completeValue c type site value)
    | .await type site timer outcome =>
      match ← pollTimer timer, outcome with
      | some timer, _ => return .waiting (.await type site timer outcome)
      | none, .error e => return .done (.error e.toError)
      | none, .ok value =>
        noteOpened value.openStreams
        run fuel (.complete type site value)
    | .nonNull info value =>
      match ← run fuel value with
      | .waiting value => return .waiting (.nonNull info value)
      | .done (.error e) => return .done (.error e)
      | .done (.ok result) =>
        if result.isNull then return .done (.error (CompletionError.unexpectedNull info).toError)
        else return .done (.ok result)
    | .gather shape started children => runChildren (run fuel) shape started children
    | .iterate type site usage source items =>
      match ← takeItems type site usage (source.steps.length + 1) source items with
      | .error e => return .done (.error e)
      | .ok (.iterate type site usage source items) =>
        return .waiting (.iterate type site usage source items)
      | .ok job => run fuel job
    | .select fields => run fuel (← selectFields c fields)
    | .serial _ done none [] => return .done (.ok (.object done))
    | .serial fields done none ((key, group) :: rest) =>
      match ← fieldJob c fields key group with
      | none => run fuel (.serial fields done none rest)
      | some job => run fuel (.serial fields done (some (key, job)) rest)
    | .serial fields done (some (key, job)) rest =>
      match ← run fuel job with
      | .waiting job => return .waiting (.serial fields done (some (key, job)) rest)
      | .done (.error e) => return .done (.error e)
      | .done (.ok result) => run fuel (.serial fields (done ++ [(key, result)]) none rest)

/-- `Task.run`, which is varied. -/
def runTask (fuel : Nat) (task : Task) : ExecM (Option Task) := do
  match task with
  | .fieldSet path id data =>
    match ← v.run c fuel data with
    | .waiting data => return some (.fieldSet path id data)
    | .done (.ok result) =>
      publishUnit fun p => p.completeFieldSet id result
      return none
    | .done (.error e) =>
      publishAndClose fun p => p.filter path id
      publishUnit fun p => p.failFieldSet id e
      return none
  | .item listPath id value =>
    match ← v.run c fuel value with
    | .waiting value => return some (.item listPath id value)
    | .done (.ok result) =>
      publishUnit fun p => p.completeItems id [result]
      return none
    | .done (.error e) =>
      publishAndClose fun p => p.filter listPath id
      publishAndClose fun p => p.failItems id e
      return none
  | .fetch f => fetchItems (f.source.steps.length + 1) f

/-! ### Sessions -/

/-- `Execution.beginOperation`, which is varied. -/
def beginOperation : ExecM Progress := do
  let s ← get
  let selections := c.operation.selectionSet.selections
  let (collected, collector) := s.memory.collector.collectFields c.collection c.rootType selections
  set { s with memory := { s.memory with collector := collector } }
  match collected with
  | .error e => return .fail e.toError
  | .ok collected =>
    let deferMap ← v.addFragments .root .initial collected.newUsages []
    let sets ← v.addFieldSets .root deferMap collected.newSets
    let fields : ObjectFields := ⟨c.rootType, c.rootValue, .root, collected.fields, .initial, deferMap⟩
    let data ← match c.operation.kind with
      | .mutation => pure (.serial fields [] none collected.fields)
      | _ => selectFields c fields
    spawnFieldSets c fields sets
    return .go data

/-- `Execution.runInitial`, which is varied. -/
def runInitial (fuel : Nat) : (rounds : Nat) → Job → ExecM Ran
  | 0, _ => failure
  | rounds + 1, job => do
    match ← v.run c fuel job with
    | .done outcome => return .done outcome
    | .waiting job =>
      Stage.runReady (v.runTask c fuel) (← get).work.ready.length
      if (← get).publisher.inbox.isEmpty then return .waiting job
      else
        modify Stage.takeInbox
        runInitial fuel rounds job

/-- `Execution.awaitAnswer`, which is varied. -/
def awaitAnswer (fuel : Nat) : (rounds : Nat) → Job → ExecM (Option Answer)
  | 0, _ => failure
  | rounds + 1, job => do
    match ← v.runInitial c fuel fuel job with
    | .done outcome => return some (← answer outcome)
    | .waiting job =>
      match (← get).nextTime? job.deadlines with
      | some time =>
        modify fun s => s.advanceTo time
        awaitAnswer fuel rounds job
      | none =>
        dropInitial job
        return none

/-- `ExecutionContext.respondWith`, which is varied. -/
def respondWith (fuel : Nat) : ExecM (Option Answer) := do
  match ← v.beginOperation c with
  | .done outcome => return some (← answer outcome)
  | .go job => v.awaitAnswer c fuel fuel job

/-- `ExecutionContext.respondNow`, which is varied. -/
def respondNow : ExecM Response := do
  let ran ← match ← v.beginOperation c with
    | .done outcome => pure (.done outcome)
    | .go job => v.runInitial c ExecutionContext.limit ExecutionContext.limit job
  match ran with
  | .waiting job =>
    dropInitial job
    return SyncError.notFinished.toResponse
  | .done outcome =>
    match ← answer outcome with
    | .single response => return response
    | .incremental _ =>
      modify Stage.cancel
      return SyncError.severalResults.toResponse

end Variation

end

/-! ### Consumers -/

/-- What a consumer does after the answer. -/
inductive Act where
  /-- It pulls a result. -/
  | pull (fuel rounds : Nat)
  /-- It lets time go on. -/
  | advance (time : Nat)
  /-- It wants no more. -/
  | cancel

/-- What a consumer sees: what it pulled, the time, and all notices. -/
structure Sight where
  pulled : Option Pulled
  now : Nat
  log : List Notice

namespace Execution

/-- Looks at the stage. -/
def see (pulled : Option Pulled) : ExecM Sight := do
  let s ← get
  return ⟨pulled, s.now, s.log⟩

/-- What a consumer sees after it did something, if tasks are run in some way. -/
def act (run : (fuel : Nat) → Runner Task Memory) : Act → ExecM Sight
  | .pull fuel rounds => do
    let pulled ← Stage.pull (run fuel) rounds
    see (some pulled)
  | .advance time => do
    modify fun s => s.advanceTo time
    see none
  | .cancel => do
    modify Stage.cancel
    see none

/-- An answer with what the consumer sees then, and after each of its acts. -/
def session (respond : ExecM (Option Answer)) (run : (fuel : Nat) → Runner Task Memory) (acts : List Act) :
    ExecM (Option Answer × Sight × List Sight) := do
  let answer ← respond
  let sight ← see none
  let sights ← acts.mapM (act run)
  return (answer, sight, sights)

/-- A response with what can be seen after it. -/
def seen (respond : ExecM Response) : ExecM (Response × Sight) := do
  let response ← respond
  let sight ← see none
  return (response, sight)

end Execution

/-- What an execution gives, and what its consumer sees. -/
def ExecM.outcome {α : Type} (c : ExecutionContext) (m : ExecM α) : Option α := (m.run c.stage).map Prod.fst

/-- The execution gives the same, and its consumers see the same, if it is varied. -/
structure Variation.Unseen (v : Variation) (c : ExecutionContext) : Prop where
  session : ∀ (fuel : Nat) (acts : List Act), ExecM.outcome c (Execution.session (v.respondWith c fuel) (v.runTask c) acts) =
    ExecM.outcome c (Execution.session (c.respondWith fuel) (Task.run c) acts)
  now : ExecM.outcome c (Execution.seen (v.respondNow c)) = ExecM.outcome c (Execution.seen c.respondNow)

end GraphQL
