import GraphQL.Delivery.Output
import GraphQL.Execution.Context

/-!
# Completion of values

How the results of resolvers become values of the response.  Every function here takes one step: it either comes to an
outcome or says which job goes on with the value, and may report records, spawn tasks and add errors on the way.
`Job.run` in `GraphQL.Execution.Run` puts the steps together.
-/

namespace GraphQL

/-- What one step comes to. -/
inductive Progress where
  | done (outcome : Except Error Json)
  | go (job : Job)

namespace Progress

/-- A step that failed. -/
def fail (e : Error) : Progress := done (.error e)

end Progress

namespace Execution

/-! ### The stage -/

/-- Changes the publisher. -/
def publish {α : Type} (f : Publisher Task → Publisher Task × α) : ExecM α := do
  let s ← get
  let (publisher, result) := f s.publisher
  set { s with publisher := publisher }
  return result

/-- Changes the publisher. -/
def publishUnit (f : Publisher Task → Publisher Task) : ExecM Unit :=
  publish fun p => (f p, ())

/-- Changes the publisher, and closes the streams that have to be closed after it. -/
def publishAndClose (f : Publisher Task → Publisher Task × List StreamId) : ExecM Unit :=
  modify fun s => s.publishAndClose f

/-- Spawns a task. -/
def spawn (task : Task) : ExecM Unit := modify fun s => s.spawn task

/-- Notices that streams were closed because what held them is dropped. -/
def noteClosed (names : List String) : ExecM Unit := modify fun s => s.noteClosed names

/-- Notices that streams were obtained. -/
def noteOpened (names : List String) : ExecM Unit := modify fun s => s.noteOpened names

/-- Notices that streams came to their ends. -/
def noteEnded (names : List String) : ExecM Unit := modify fun s => s.noteEnded names

/-- Starts a timer or looks at it again. -/
def pollTimer (t : Timer) : ExecM (Option Timer) := modifyGet fun s => (s.pollTimer t).swap

/-- Asks a stream for its next item. -/
def pollStream (source : ItemStream) : ExecM (ItemStream × Polled Resolved) := do
  let (s, source, polled) := source.poll Resolved.isError (← get)
  set (s.noteOpened polled.openStreams)
  return (source, polled)

/-! ### Fields -/

/-- Calls the resolver of a field, at once or when its result is first asked for. -/
def call (r : Resolver) (input : ResolverInput) : ExecM Resolved := do
  let notice := Notice.called input.info.parentType input.info.fieldName input.info.path
  if r.calledLater then return .ok (.later (some notice) 0 (r.resolve input))
  else
    let outcome := r.resolve input
    modify fun s => (s.note notice).noteOpened outcome.openStreams
    return outcome

/-- The result of a field: its arguments are read, and its resolver is called. -/
def resolveField (c : ExecutionContext) (parent : Json) (field : Field) (definition : FieldDef)
    (info : FieldInfo) : ExecM (Except Error FieldValue) := do
  match argumentValues c.schema definition.arguments field.arguments c.vars with
  | .error e => return .error e.toError
  | .ok arguments =>
    if info.fieldName = "__typename" then return .ok (.value (.string info.parentType))
    else
      match c.resolvers.find? info.parentType info.fieldName with
      | none => return .error (CompletionError.noResolver info.parentType info.fieldName).toError
      | some .property => return (propertyOf parent info.fieldName).mapError ResolverError.toError
      | some (.resolver r) =>
        return (← call r ⟨parent, arguments, c.context, info⟩).mapError ResolverError.toError

/-- The job of a field; a field that the type does not have is left out. -/
def fieldJob (c : ExecutionContext) (o : ObjectFields) (key : String) (group : FieldGroup) :
    ExecM (Option Job) := do
  let field := group.first.node
  match c.schema.field? o.typeName field.name.value with
  | none => return none
  | some definition =>
    let path := o.path.key key
    let info : FieldInfo := ⟨field.name.value, o.typeName, definition.type.text, path⟩
    let site : Site := ⟨group, info, path, o.record, o.deferMap⟩
    match ← resolveField c o.parent field definition info with
    | .ok value => return some (.field definition.type site (.complete definition.type site value))
    | .error e => return some (.field definition.type site (.failed e))

/-- The jobs of fields that are resolved together: the resolvers are called in the order of the fields. -/
def fieldJobs (c : ExecutionContext) (o : ObjectFields) : GroupedFieldSet → ExecM (List (String × Job))
  | [] => return []
  | (key, group) :: rest => do
    match ← fieldJob c o key group with
    | none => fieldJobs c o rest
    | some job => return (key, job) :: (← fieldJobs c o rest)

/-- Resolves fields together; what waits are their values. -/
def selectFields (c : ExecutionContext) (o : ObjectFields) : ExecM Job := do
  let jobs ← fieldJobs c o o.fields
  return .gather (.object (jobs.map (·.1))) false (jobs.map fun j => .running j.2)

/-- Ends a field with an error.  It is located, and if the type allows null the error is noted, what was to be delivered
below the field is filtered, and the value is null. -/
def absorb (type : TypeRef) (site : Site) (raw : Error) : ExecM (Except Error Json) := do
  let error := raw.locate site.group site.path
  if type.isNonNull then return .error error
  else
    publishUnit fun p => p.addError site.record error
    publishAndClose fun p => p.filter site.path site.record
    return .ok .null

/-! ### Deferred fragments -/

/-- Reports deferred fragments.  Each is delivered after the fragment around it, or after the record that is being
completed if there is none. -/
def addFragments (path : Path) (record : RecordId) (usages : List DeferUsage) (deferMap : DeferMap) :
    ExecM DeferMap :=
  usages.foldlM (fun map usage => do
    let parent := (usage.ancestors.head?.bind map.get?).getD record
    let id ← publish fun p => p.addFragment path usage.label parent
    return map.insert usage.id id) deferMap

/-- Reports sets of fields of deferred fragments. -/
def addFieldSets (path : Path) (deferMap : DeferMap) (sets : List NewFieldSet) :
    ExecM (List (NewFieldSet × RecordId)) :=
  sets.mapM fun set => do
    let fragments := set.targets.usages.filterMap fun usage => deferMap.get? usage.id
    let id ← publish fun p => p.addFieldSet path fragments
    return (set, id)

/-- Spawns the tasks for deferred sets of fields.  Those that begin a fragment are resolved when the task runs, the
others at once. -/
def spawnFieldSets (c : ExecutionContext) (o : ObjectFields) :
    List (NewFieldSet × RecordId) → ExecM Unit
  | [] => return ()
  | (set, id) :: rest => do
    let fields : ObjectFields := { o with fields := set.fields, record := id }
    let job ← if set.initiatesDefer then pure (.select fields) else selectFields c fields
    spawn (.fieldSet o.path id job)
    spawnFieldSets c o rest

/-! ### Objects -/

/-- Completes an object: the fields below it are collected, deferred ones are reported and spawned, and the others
resolved. -/
def completeObject (c : ExecutionContext) (typeName : String) (site : Site) (value : Json) :
    ExecM Progress := do
  let isOfType := match Dict.get? c.resolvers.isTypeOf typeName with
    | some test => test value c.context
    | none => true
  if !isOfType then return .fail ((CompletionError.wrongObjectType typeName value).toErrorAt site.group)
  else
    let s ← get
    let (collected, collector) := s.memory.collector.collectSubfields c.collection typeName site.group
    set { s with memory := { s.memory with collector := collector } }
    match collected with
    | .error e => return .fail e.toError
    | .ok collected =>
      let deferMap ← addFragments site.path site.record collected.newUsages site.deferMap
      let sets ← addFieldSets site.path deferMap collected.newSets
      let fields : ObjectFields := ⟨typeName, value, site.path, collected.fields, site.record, deferMap⟩
      let data ← selectFields c fields
      spawnFieldSets c fields sets
      return .go data

/-- The object type of a value by its own account, or the first possible one whose test it passes. -/
def defaultRuntimeType (c : ExecutionContext) (abstractType : String) (value : Json) : Option String :=
  match value.get? "__typename" with
  | some (.string name) => some name
  | _ =>
    (c.schema.possibleTypes abstractType).find? fun name =>
      match Dict.get? c.resolvers.isTypeOf name with
      | some test => test value c.context
      | none => false

/-- The object type of a value of an abstract type. -/
def runtimeType (c : ExecutionContext) (abstractType : String) (value : Json) (site : Site) :
    Except Error String :=
  let found := match Dict.get? c.resolvers.typeResolvers abstractType with
    | some resolve => resolve value c.context site.info
    | none => defaultRuntimeType c abstractType value
  let refuse (e : CompletionError) : Except Error String := .error (e.toErrorAt site.group)
  match found with
  | none => refuse (.noRuntimeType abstractType site.info)
  | some name =>
    match c.schema.typeKind? name with
    | none => refuse (.unknownRuntimeType abstractType name)
    | some .object =>
      if c.schema.isSubType abstractType name then .ok name
      else refuse (.impossibleRuntimeType abstractType name)
    | some _ => refuse (.nonObjectRuntimeType abstractType name)

/-! ### Leaves and lists -/

/-- The single value of a result.  Streams of a result that is none are dropped. -/
def singleValue (value : FieldValue) (typeName : String) : ExecM (Except Error Json) := do
  match value with
  | .value v => return .ok v
  | .later .. => return .error (CompletionError.notReady typeName).toError
  | _ =>
    noteClosed value.openStreams
    return .error (CompletionError.notSingle typeName).toError

/-- Completes a value of a leaf type. -/
def completeLeaf (c : ExecutionContext) (typeName : String) (value : FieldValue) :
    ExecM (Except Error Json) := do
  match ← singleValue value typeName with
  | .error e => return .error e
  | .ok v =>
    match c.schema.serializeLeaf typeName v with
    | .error e => return .error (.ofMessage e.message)
    | .ok serialized =>
      if serialized.isNull then return .error (CompletionError.nullLeaf typeName v).toError
      else return .ok serialized

/-- How the list that a group asks for is streamed, if it is: the rule. -/
def newStreamUsage (c : ExecutionContext) (group : FieldGroup) (nextGroup : Nat) :
    Except Error (Option StreamUsage) :=
  if !c.config.incrementalDelivery then .ok none
  else
    match streamOf? c.schema group.first.node.directives c.vars with
    | .error e => .error e.toError
    | .ok none => .ok none
    | .ok (some d) =>
      if d.initialCount < 0 then .error CompletionError.negativeInitialCount.toError
      else if c.operation.kind = .subscription then .error CompletionError.streamInSubscription.toError
      else
        let initially (f : FieldDetails) : FieldDetails := { f with target := .initial }
        .ok <| some
          { initialCount := d.initialCount.toNat
            label := d.label
            group := ⟨nextGroup, initially group.first, group.others.map initially, .initial⟩ }

/-- How the list that a group asks for is streamed, if it is.  Lists inside of lists are not; and a group is looked at
once. -/
def streamUsage (c : ExecutionContext) (group : FieldGroup) (path : Path) :
    ExecM (Except Error (Option StreamUsage)) := do
  if path.endsWithIndex then return .ok none
  else
    let s ← get
    match s.memory.streamUsages.find? (·.1 = group.id) with
    | some (_, usage) => return .ok usage
    | none =>
      match newStreamUsage c group s.memory.collector.nextGroup with
      | .error e => return .error e
      | .ok usage =>
        let collector := if usage.isSome then
            { s.memory.collector with nextGroup := s.memory.collector.nextGroup + 1 }
          else s.memory.collector
        let memory : Memory := ⟨collector, (group.id, usage) :: s.memory.streamUsages⟩
        set { s with memory := memory }
        return .ok usage

/-- The job of an item of a list that is delivered with the list. -/
def itemJob (itemType : TypeRef) (site : Site) (index : Nat) (item : FieldValue) : Job :=
  let site := { site with path := site.path.index index }
  .field itemType site (.complete itemType site item)

/-- The job of an item of a streamed list. -/
def streamedItemJob (itemType : TypeRef) (group : FieldGroup) (info : FieldInfo) (path : Path)
    (record : RecordId) (item : FieldValue) : Job :=
  let site : Site := ⟨group, info, path, record, []⟩
  .field itemType site (.complete itemType site item)

/-- Spawns tasks for the items of a list that are streamed, each item to be delivered after the one before it.  The
answer is the record of the last item. -/
def spawnItems (itemType : TypeRef) (site : Site) (usage : StreamUsage) (stream : StreamId) :
    (parent : RecordId) → (index : Nat) → List FieldValue → ExecM RecordId
  | parent, _, [] => return parent
  | parent, index, item :: rest => do
    let path := site.path.index index
    let id ← publish fun p => p.addItems stream path parent
    spawn (.item site.path id (streamedItemJob itemType usage.group site.info path id item))
    spawnItems itemType site usage stream id (index + 1) rest

/-- The jobs of items from an index on. -/
def itemJobs (itemType : TypeRef) (site : Site) : (index : Nat) → List FieldValue → List Job
  | _, [] => []
  | index, item :: rest => itemJob itemType site index item :: itemJobs itemType site (index + 1) rest

/-- Completes a list whose items are at hand: the first ones with the list, the others as a stream if there is one. -/
def completeItems (c : ExecutionContext) (itemType : TypeRef) (site : Site) (items : List FieldValue) :
    ExecM Progress := do
  match ← streamUsage c site.group site.path with
  | .error e =>
    noteClosed (FieldValue.openStreamsOfList items)
    return .fail e
  | .ok usage =>
    let initialCount := match usage with
      | some u => u.initialCount
      | none => items.length
    let streamed := items.drop initialCount
    match usage, streamed with
    | some u, _ :: _ =>
      let stream ← publish fun p => p.addStream site.path u.label none
      let last ← spawnItems itemType site u stream site.record initialCount streamed
      publishUnit fun p => p.setFinal last
    | _, _ => pure ()
    return .go (.gather .list false ((itemJobs itemType site 0 (items.take initialCount)).map .running))

/-- Begins to complete a list whose items come as a stream. -/
def completeStream (c : ExecutionContext) (itemType : TypeRef) (site : Site) (source : ItemStream) :
    ExecM Progress := do
  match ← streamUsage c site.group site.path with
  | .error e =>
    noteClosed source.openName
    return .fail e
  | .ok usage => return .go (.iterate itemType site usage source [])

/-- Leaves the rest of a stream to a task. -/
def spawnFetcher (itemType : TypeRef) (site : Site) (usage : StreamUsage) (source : ItemStream)
    (index : Nat) : ExecM Unit := do
  let hook ← modifyGet fun s => (s.addHook source.openName.head?).swap
  let stream ← publish fun p => p.addStream site.path usage.label (some hook)
  let id ← publish fun p => p.addItems stream (site.path.index index) site.record
  spawn (.fetch ⟨stream, hook, source.disarm, itemType, usage.group, site.info, site.path, index, id⟩)

/-- Completes a list from a result that is not null and not to come later. -/
def completeList (c : ExecutionContext) (itemType : TypeRef) (site : Site) (value : FieldValue) :
    ExecM Progress := do
  match value with
  | .stream source => completeStream c itemType site source
  | .list items => completeItems c itemType site items
  | .value (.array items) => completeItems c itemType site (items.map .value)
  | _ => return .fail (CompletionError.notIterable site.info).toError

/-! ### Values -/

/-- Completes a value of a named type that is not null and not to come later. -/
def completeNamed (c : ExecutionContext) (typeName : String) (site : Site) (value : FieldValue) :
    ExecM Progress := do
  match c.schema.typeKind? typeName with
  | some .scalar | some .enum => return .done (← completeLeaf c typeName value)
  | some .interface | some .union =>
    match ← singleValue value typeName with
    | .error e => return .fail e
    | .ok v =>
      match runtimeType c typeName v site with
      | .error e => return .fail e
      | .ok runtimeType => completeObject c runtimeType site v
  | some .object =>
    match ← singleValue value typeName with
    | .error e => return .fail e
    | .ok v => completeObject c typeName site v
  | _ =>
    noteClosed value.openStreams
    return .fail (CompletionError.unexpectedOutputType typeName).toError

/-- Completes a value. -/
def completeValue (c : ExecutionContext) (type : TypeRef) (site : Site) (value : FieldValue) :
    ExecM Progress := do
  match value, type with
  | .later notice ticks outcome, _ =>
    match notice with
    | some n => modify fun s => s.noteCall n
    | none => pure ()
    return .go (.await type site (.fresh ticks) outcome)
  | value, .nonNull inner => return .go (.nonNull site.info (.complete inner site value))
  | value, .list itemType =>
    if value.isNull then return .done (.ok .null) else completeList c itemType site value
  | value, .named typeName =>
    if value.isNull then return .done (.ok .null) else completeNamed c typeName site value

end Execution

end GraphQL
