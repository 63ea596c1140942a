import GraphQL.Delivery.Payload
import GraphQL.Delivery.Record

/-!
# The publisher

The publisher knows all records of a response.  A record is *pending* once the record before it is delivered and it
is not filtered itself, and *released* once it is pending and ready: the items are completed, or the fragment has an
error or no unfinished field set.  `Publisher.nextResult?` turns what is released into a result and makes the records
after it pending.

Work that is spawned waits in the inbox until the consumer of the response takes it.
-/

namespace GraphQL

/-- All records of a response, and what of them waits. -/
structure Publisher (ω : Type) where
  records : Array Record := #[.initial {}]
  streams : Array StreamRecord := #[]
  pending : List RecordId := []
  released : List RecordId := []
  inbox : List ω := []
  closed : Bool := false

namespace Publisher

variable {ω : Type}

/-- The record with a number. -/
def record? (p : Publisher ω) (id : RecordId) : Option Record := p.records[id.index]?

/-- The stream with a number. -/
def stream? (p : Publisher ω) (id : StreamId) : Option StreamRecord := p.streams[id.index]?

/-- Changes a record. -/
def modifyRecord (p : Publisher ω) (id : RecordId) (f : Record → Record) : Publisher ω :=
  { p with records := p.records.modify id.index f }

/-- Changes a deferred fragment. -/
def modifyFragment (p : Publisher ω) (id : RecordId) (f : FragmentRecord → FragmentRecord) : Publisher ω :=
  p.modifyRecord id fun
    | .fragment r => .fragment (f r)
    | r => r

/-- Changes a record of items. -/
def modifyItems (p : Publisher ω) (id : RecordId) (f : ItemsRecord → ItemsRecord) : Publisher ω :=
  p.modifyRecord id fun
    | .items r => .items (f r)
    | r => r

/-- The fragments of a field set. -/
def fragmentsOf (p : Publisher ω) (id : RecordId) : List RecordId :=
  match p.record? id with
  | some (.fieldSet r) => r.fragments
  | _ => []

/-! ### New records -/

/-- Adds a record. -/
def push (p : Publisher ω) (record : Record) : Publisher ω × RecordId :=
  ({ p with records := p.records.push record }, ⟨p.records.size⟩)

/-- Makes a record a child of another one, or of all fragments of a field set. -/
def addChild (p : Publisher ω) (parent child : RecordId) : Publisher ω :=
  let parents := match p.record? parent with
    | some (.fieldSet r) => r.fragments
    | _ => [parent]
  parents.foldl (fun p parent => p.modifyRecord parent (Record.addChild child)) p

/-- A new deferred fragment. -/
def addFragment (p : Publisher ω) (path : Path) (label : Option String) (parent : RecordId) :
    Publisher ω × RecordId :=
  let (p, id) := p.push (.fragment { path := path, label := label })
  (p.addChild parent id, id)

/-- A new field set of some fragments. -/
def addFieldSet (p : Publisher ω) (path : Path) (fragments : List RecordId) : Publisher ω × RecordId :=
  let (p, id) := p.push (.fieldSet { path := path, fragments := fragments })
  let p := fragments.foldl (fun p fragment =>
    p.modifyFragment fragment fun r =>
      { r with unfinished := addNew r.unfinished id, fieldSets := addNew r.fieldSets id }) p
  (p, id)

/-- A new streamed list. -/
def addStream (p : Publisher ω) (path : Path) (label : Option String) (hook : Option HookId) :
    Publisher ω × StreamId :=
  ({ p with streams := p.streams.push { path := path, label := label, hook := hook } }, ⟨p.streams.size⟩)

/-- A new record of items. -/
def addItems (p : Publisher ω) (stream : StreamId) (path : Path) (parent : RecordId) :
    Publisher ω × RecordId :=
  let (p, id) := p.push (.items { stream := stream, path := path })
  (p.addChild parent id, id)

/-! ### Completion -/

/-- Releases a record if it is pending. -/
def release (p : Publisher ω) (id : RecordId) : Publisher ω :=
  if id ∈ p.pending then { p with released := addNew p.released id } else p

/-- Takes a field set off the unfinished ones of a fragment. -/
def finishFieldSet (p : Publisher ω) (set fragment : RecordId) : Publisher ω :=
  p.modifyFragment fragment fun r => { r with unfinished := r.unfinished.filter (· ≠ set) }

/-- A field set has its data: fragments without other unfinished ones are released. -/
def completeFieldSet (p : Publisher ω) (id : RecordId) (data : Json) : Publisher ω :=
  let fragments := p.fragmentsOf id
  let p := p.modifyRecord id fun
    | .fieldSet r => .fieldSet { r with data := some data }
    | r => r
  fragments.foldl (fun p fragment =>
    let p := p.finishFieldSet id fragment
    match p.record? fragment with
    | some (.fragment r) => if r.unfinished.isEmpty then p.release fragment else p
    | _ => p) p

/-- A field set failed: all its fragments fail with it. -/
def failFieldSet (p : Publisher ω) (id : RecordId) (error : Error) : Publisher ω :=
  (p.fragmentsOf id).foldl (fun p fragment =>
    let p := p.finishFieldSet id fragment
    (p.modifyFragment fragment fun r => { r with errors := r.errors ++ [error] }).release fragment) p

/-- Items are there. -/
def completeItems (p : Publisher ω) (id : RecordId) (items : List Json) : Publisher ω :=
  (p.modifyItems id fun r => { r with items := items, completed := true }).release id

/-- Items failed, and their stream with them, which is to be closed. -/
def failItems (p : Publisher ω) (id : RecordId) (error : Error) : Publisher ω × List StreamId :=
  match p.record? id with
  | some (.items r) =>
    let p := p.modifyItems id fun r => { r with final := true, completed := true }
    let p := { p with
      streams := p.streams.modify r.stream.index fun s => { s with errors := s.errors ++ [error] } }
    (p.release id, [r.stream])
  | _ => (p, [])

/-- Nothing of the list comes after a record. -/
def setFinal (p : Publisher ω) (id : RecordId) : Publisher ω :=
  p.modifyItems id fun r => { r with final := true }

/-- The list ends before a record. -/
def setEnd (p : Publisher ω) (id : RecordId) : Publisher ω :=
  p.modifyItems id fun r => { r with endsStream := true, final := true }

/-- A record of a stream that failed earlier stands for nothing. -/
def retireItems (p : Publisher ω) (id : RecordId) : Publisher ω :=
  (p.modifyItems id fun r => { r with endsStream := true, completed := true }).release id

/-- Whether a stream failed. -/
def streamHasErrors (p : Publisher ω) (id : StreamId) : Bool :=
  (p.stream? id).any fun s => !s.errors.isEmpty

/-- Adds an error to what a record delivers. -/
def addError (p : Publisher ω) (id : RecordId) (error : Error) : Publisher ω :=
  p.modifyRecord id (Record.addError error)

/-! ### Filtering -/

/-- The children of a record, or of all fragments of a field set. -/
def childrenOf (p : Publisher ω) (id : RecordId) : List RecordId :=
  match p.record? id with
  | some (.fieldSet r) =>
    (r.fragments.flatMap fun f => ((p.record? f).map Record.children).getD []).eraseDups
  | some r => r.children
  | none => []

/-- The records on a stack and all those below them, each once, in depth-first order.  Each step takes a record off
the stack, and only records that were not met put their children on it. -/
def collectBelow (p : Publisher ω) : (fuel : Nat) → (met stack : List RecordId) → List RecordId
  | 0, met, _ => met
  | _ + 1, met, [] => met
  | fuel + 1, met, id :: stack =>
    if id ∈ met then collectBelow p fuel met stack
    else collectBelow p fuel (met ++ [id]) (((p.record? id).map Record.children).getD [] ++ stack)

/-- The number of links from records to children. -/
def linkCount (p : Publisher ω) : Nat := (p.records.toList.flatMap Record.children).length

/-- Some records and all those below them. -/
def descendants (p : Publisher ω) (roots : List RecordId) : List RecordId :=
  p.collectBelow (roots.length + p.linkCount + 1) [] roots

/-- Whether a record delivers something at or below a path. -/
def isUnder (p : Publisher ω) (id : RecordId) (nullPath : Path) : Bool :=
  match p.record? id with
  | some (.items r) => r.path.startsWith nullPath
  | some (.fragment r) =>
    r.path.startsWith nullPath || r.fieldSets.any fun s =>
      match p.record? s with
      | some (.fieldSet s) => s.path.startsWith nullPath
      | _ => false
  | _ => false

/-- A value became null while a record was completed: what was to be delivered below that value is not, and the
streams concerned are to be closed. -/
def filter (p : Publisher ω) (nullPath : Path) (erroring : RecordId) : Publisher ω × List StreamId :=
  let under := (p.descendants (p.childrenOf erroring)).filter (p.isUnder · nullPath)
  let streams := under.filterMap fun id =>
    match p.record? id with
    | some (.items r) => some r.stream
    | _ => none
  (under.foldl (fun p id => p.modifyRecord id Record.setFiltered) p, streams.eraseDups)

/-! ### Results -/

/-- Makes a record pending, and releases it if it is ready. -/
def publish (p : Publisher ω) (id : RecordId) : Publisher ω :=
  let ready? := match p.record? id with
    | some (.items r) => some r.completed
    | some (.fragment r) => some (r.unfinished.isEmpty || !r.errors.isEmpty)
    | _ => none
  match ready? with
  | some true =>
    { p with released := addNew p.released id, pending := addNew p.pending id }
  | some false => { p with pending := addNew p.pending id }
  | none => p

/-- Makes the children of a record pending that are not filtered. -/
def publishChildren (p : Publisher ω) (id : RecordId) : Publisher ω :=
  let children := (((p.record? id).map Record.children).getD []).filter fun child =>
    !((p.record? child).any Record.isFiltered)
  children.foldl publish p

/-- The entry for a field set that was not sent yet, which counts as sent from then on. -/
def sendFieldSet (label : Option String) (state : Publisher ω × List IncrementalEntry) (id : RecordId) :
    Publisher ω × List IncrementalEntry :=
  let (p, entries) := state
  match p.record? id with
  | some (.fieldSet r) =>
    if r.sent then (p, entries)
    else
      let entry := .defer ⟨r.data.getD .null, r.path, label, r.errors⟩
      (p.modifyRecord id fun _ => .fieldSet { r with sent := true, data := none, errors := [] },
        entries ++ [entry])
  | _ => (p, entries)

/-- What a released record adds to a result. -/
def deliver (p : Publisher ω) (id : RecordId) :
    Publisher ω × List IncrementalEntry × List CompletedEntry :=
  match p.record? id with
  | some (.items r) =>
    let stream := (p.stream? r.stream).getD default
    let completed := if r.final then [⟨stream.path, stream.label, stream.errors⟩] else []
    if r.endsStream || r.items.isEmpty then (p, [], completed)
    else
      (p.modifyItems id fun r => { r with items := [], errors := [] },
        [.stream ⟨r.items, r.path, stream.label, r.errors⟩], completed)
  | some (.fragment r) =>
    let completed := [⟨r.path, r.label, r.errors⟩]
    if !r.errors.isEmpty then (p, [], completed)
    else
      let (p, entries) := r.fieldSets.foldl (sendFieldSet r.label) (p, [])
      (p, entries, completed)
  | _ => (p, [], [])

/-- Publishes the children of a released record and adds its entries. -/
def deliverNext (state : Publisher ω × List IncrementalEntry × List CompletedEntry) (id : RecordId) :
    Publisher ω × List IncrementalEntry × List CompletedEntry :=
  let (p, incremental, completed) := state
  let (p, moreIncremental, moreCompleted) := (p.publishChildren id).deliver id
  (p, incremental ++ moreIncremental, completed ++ moreCompleted)

/-- Delivers everything that is released.  There is no result if nothing of it has an entry and more follows. -/
def processReleased (p : Publisher ω) : Publisher ω × Option SubsequentResult :=
  let released := p.released
  let p := { p with released := [], pending := p.pending.filter (· ∉ released) }
  let (p, incremental, completed) := released.foldl deliverNext (p, [], [])
  let hasNext := !p.pending.isEmpty
  if incremental.isEmpty && completed.isEmpty && hasNext then (p, none)
  else (p, some ⟨incremental, completed, hasNext⟩)

/-- The next result, if anything is released. -/
def nextResult? (p : Publisher ω) : Publisher ω × Option SubsequentResult :=
  if p.released.isEmpty then (p, none) else p.processReleased

/-- Whether anything is yet to be delivered. -/
def hasPending (p : Publisher ω) : Bool := !p.pending.isEmpty

/-- Whether a result or new work can be taken. -/
def hasReady (p : Publisher ω) : Bool := !p.released.isEmpty || !p.inbox.isEmpty

/-- The errors of the initial result, which are taken away. -/
def takeErrors (p : Publisher ω) : Publisher ω × List Error :=
  let errors := match p.record? .initial with
    | some (.initial r) => r.errors
    | _ => []
  (p.modifyRecord .initial fun
    | .initial r => .initial { r with errors := [] }
    | r => r, errors)

end Publisher

end GraphQL
