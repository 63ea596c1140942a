import GraphQL.Collection.Collector
import GraphQL.Resolution.Resolver

/-!
# Jobs

A job is a value of the response that is being completed, stopped wherever it waits.  It is a tree: a field whose value
is completed lies around that value, and lists and objects wait for their children.  Running a job again goes on where
it stopped.

A task is a job that is not part of the data around it: a deferred set of fields, an item of a streamed list, or the
fetching of the items of a stream.
-/

namespace GraphQL

/-- The records of deferred fragments, by the ids of their uses of `@defer`. -/
abbrev DeferMap := List (Nat × RecordId)

namespace DeferMap

/-- The record of a use of `@defer`. -/
def get? (m : DeferMap) (usage : Nat) : Option RecordId := (m.find? (·.1 = usage)).map (·.2)

/-- Adds the record of a use of `@defer`. -/
def insert (m : DeferMap) (usage : Nat) (record : RecordId) : DeferMap := (usage, record) :: m

end DeferMap

/-- Where a value stands: the fields that ask for it, the facts about the first of them, its path, the record that
delivers it, and the deferred fragments around it. -/
structure Site where
  group : FieldGroup
  info : FieldInfo
  path : Path
  record : RecordId
  deferMap : DeferMap
deriving Inhabited

/-- How the items of a list are streamed: how many are not, the label, and the group for those that are. -/
structure StreamUsage where
  initialCount : Nat
  label : Option String
  group : FieldGroup
deriving Inhabited

/-- Fields of one object that are to be resolved. -/
structure ObjectFields where
  typeName : String
  parent : Json
  path : Path
  fields : GroupedFieldSet
  record : RecordId
  deferMap : DeferMap
deriving Inhabited

/-- What children are put together to. -/
inductive Shape where
  | list
  | object (keys : List String)
deriving Inhabited

/-- A child: still running, or with its outcome. -/
inductive Slot (α : Type) where
  | running (job : α)
  | finished (outcome : Except Error Json)

/-- A value that is being completed. -/
inductive Job where
  /-- A field or item: errors of its value are located here and, if the type allows it, become null. -/
  | field (type : TypeRef) (site : Site) (value : Job)
  /-- No value. -/
  | failed (error : Error)
  /-- A value that has not been looked at. -/
  | complete (type : TypeRef) (site : Site) (value : FieldValue)
  /-- A value that comes later. -/
  | await (type : TypeRef) (site : Site) (timer : Timer) (outcome : Resolved)
  /-- A value that must not be null. -/
  | nonNull (info : FieldInfo) (value : Job)
  /-- The children of a list or an object, run before or not. -/
  | gather (shape : Shape) (started : Bool) (children : List (Slot Job))
  /-- The first items of a stream, as far as they are there, the last one first. -/
  | iterate (type : TypeRef) (site : Site) (usage : Option StreamUsage)
      (source : ItemStream) (itemsReversed : List Job)
  /-- Fields that are resolved together. -/
  | select (fields : ObjectFields)
  /-- Fields that are resolved one after the other: those that are done, the one that runs, and the others. -/
  | serial (fields : ObjectFields) (done : List (String × Json)) (current : Option (String × Job))
      (remaining : GroupedFieldSet)
deriving Inhabited

/-- The fetching of the items of a stream. -/
structure Fetcher where
  stream : StreamId
  hook : HookId
  source : ItemStream
  itemType : TypeRef
  group : FieldGroup
  info : FieldInfo
  /-- The path of the list. -/
  path : Path
  /-- The index of the next item, and the record for it. -/
  index : Nat
  record : RecordId

/-- Work beside the initial data. -/
inductive Task where
  | fieldSet (path : Path) (record : RecordId) (data : Job)
  | item (listPath : Path) (record : RecordId) (value : Job)
  | fetch (fetcher : Fetcher)

namespace Job

mutual

/-- The deadlines that a job waits for. -/
def deadlines : Job → List Deadline
  | .field _ _ value => value.deadlines
  | .failed _ => []
  | .complete .. => []
  | .await _ _ timer _ => timer.deadlines
  | .nonNull _ value => value.deadlines
  | .gather _ _ children => deadlinesOfSlots children
  | .iterate _ _ _ source _ => source.deadlines
  | .select _ => []
  | .serial _ _ (some (_, job)) _ => job.deadlines
  | .serial _ _ none _ => []

/-- The deadlines that children wait for. -/
def deadlinesOfSlots : List (Slot Job) → List Deadline
  | [] => []
  | .running job :: rest => job.deadlines ++ deadlinesOfSlots rest
  | .finished _ :: rest => deadlinesOfSlots rest

end

mutual

/-- The names of the streams that are open in a job. -/
def openStreams : Job → List String
  | .field _ _ value => value.openStreams
  | .failed _ => []
  | .complete _ _ value => value.openStreams
  | .await .. => []
  | .nonNull _ value => value.openStreams
  | .gather _ _ children => openStreamsOfSlots children
  | .iterate _ _ _ source items => source.openName ++ openStreamsOfJobs items
  | .select _ => []
  | .serial _ _ (some (_, job)) _ => job.openStreams
  | .serial _ _ none _ => []

/-- The names of the streams that are open in children. -/
def openStreamsOfSlots : List (Slot Job) → List String
  | [] => []
  | .running job :: rest => job.openStreams ++ openStreamsOfSlots rest
  | .finished _ :: rest => openStreamsOfSlots rest

/-- The names of the streams that are open in jobs. -/
def openStreamsOfJobs : List Job → List String
  | [] => []
  | job :: rest => job.openStreams ++ openStreamsOfJobs rest

end

end Job

namespace Task

/-- The deadlines that a task waits for. -/
def deadlines : Task → List Deadline
  | fieldSet _ _ data => data.deadlines
  | item _ _ value => value.deadlines
  | fetch f => f.source.deadlines

/-- The streams that are open in a task, but for the one that it fetches. -/
def openStreams : Task → List String
  | fieldSet _ _ data => data.openStreams
  | item _ _ value => value.openStreams
  | fetch _ => []

/-- The stream whose items a task fetches. -/
def drives : Task → Option StreamId
  | fetch f => some f.stream
  | _ => none

/-- The hook of the stream whose items a task fetches. -/
def hook : Task → Option HookId
  | fetch f => some f.hook
  | _ => none

end Task

instance : Work Task where
  deadlines := Task.deadlines
  drives := Task.drives
  openStreams := Task.openStreams
  hook := Task.hook

end GraphQL
