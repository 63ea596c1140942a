import GraphQL.Delivery.Publisher

/-!
# The stage of a response

Everything that changes while a response is produced: the clock, the publisher, the work that was taken from it, the
close hooks of item streams, and a log of what happened besides results.  Time stands still while anything can
run; a timer that waits remembers its deadline and the order in which it started to wait.

What work is, is left open: `Work` says which timers a piece of work waits for, which stream it drives, and what is
closed when it is dropped, and a `Runner` runs it until it waits or is done.
-/

namespace GraphQL

/-- What happens besides results. -/
inductive Notice where
  /-- The resolver of a field was called. -/
  | called (typeName fieldName : String) (path : Path)
  /-- A stream of items was closed before its end. -/
  | closed (name : String)
  /-- A stream of items was obtained. -/
  | opened (name : String)
  /-- A stream of items came to its end or failed, which leaves nothing to close. -/
  | ended (name : String)
deriving DecidableEq, Repr, Inhabited

/-- A timer that waits: when it is due, and how many timers started to wait before it. -/
structure Deadline where
  time : Nat
  order : Nat
deriving DecidableEq, Repr, Inhabited

/-- A timer. -/
inductive Timer where
  /-- Not started, to wait for so many ticks. -/
  | fresh (ticks : Nat)
  | waiting (deadline : Deadline)
deriving DecidableEq, Repr, Inhabited

namespace Timer

/-- The deadline of a timer that waits. -/
def deadlines : Timer → List Deadline
  | fresh _ => []
  | waiting d => [d]

end Timer

/-- Work that was taken from the inbox. -/
structure WorkSet (ω : Type) where
  /-- What can run, in the order in which it will. -/
  ready : List ω := []
  /-- What waits for timers. -/
  waiting : List ω := []

namespace WorkSet

variable {ω : Type}

/-- Whether nothing is left to do. -/
def isEmpty (w : WorkSet ω) : Bool := w.ready.isEmpty && w.waiting.isEmpty

/-- All work. -/
def all (w : WorkSet ω) : List ω := w.ready ++ w.waiting

/-- Keeps only some of the work. -/
def filter (w : WorkSet ω) (keep : ω → Bool) : WorkSet ω := ⟨w.ready.filter keep, w.waiting.filter keep⟩

end WorkSet

/-- What changes while a response is produced.  `ε` is what the work itself remembers. -/
structure Stage (ω ε : Type) where
  publisher : Publisher ω := {}
  work : WorkSet ω := {}
  now : Nat := 0
  /-- How many timers have started to wait. -/
  timersStarted : Nat := 0
  /-- The names under which hooks that are armed announce the closing of their streams. -/
  hooks : Array (Option String) := #[]
  /-- What happened, the latest first. -/
  log : List Notice := []
  /-- Whether the stream of subsequent results is over. -/
  outputDone : Bool := false
  memory : ε

/-- A step of a response; it has no outcome if it runs longer than its fuel allows. -/
abbrev StageM (ω ε : Type) := StateT (Stage ω ε) Option

/-- A kind of work: what of it matters to those that do not run it. -/
class Work (ω : Type) where
  /-- The deadlines that a piece of work waits for. -/
  deadlines : ω → List Deadline
  /-- The stream whose items a piece of work fetches. -/
  drives : ω → Option StreamId
  /-- The streams that are open in a piece of work, by the names under which their closing is noticed. -/
  openStreams : ω → List String
  /-- The hook of the stream that a piece of work fetches items from. -/
  hook : ω → Option HookId

/-- Runs a piece of work until it is done (`none`) or waits. -/
abbrev Runner (ω ε : Type) := ω → StageM ω ε (Option ω)

namespace Stage

variable {ω ε : Type} [Work ω]

/-- Notes an observation. -/
def note (s : Stage ω ε) (notice : Notice) : Stage ω ε := { s with log := notice :: s.log }

/-- Notes the call of a resolver.  Nothing else is noted of a result that comes later. -/
def noteCall (s : Stage ω ε) : Notice → Stage ω ε
  | .called typeName fieldName path => s.note (.called typeName fieldName path)
  | _ => s

/-- Notes that streams were closed. -/
def noteClosed (s : Stage ω ε) (names : List String) : Stage ω ε :=
  names.foldl (fun s name => s.note (.closed name)) s

/-- Notes that streams were obtained. -/
def noteOpened (s : Stage ω ε) (names : List String) : Stage ω ε :=
  names.foldl (fun s name => s.note (.opened name)) s

/-- Notes that streams came to their ends. -/
def noteEnded (s : Stage ω ε) (names : List String) : Stage ω ε :=
  names.foldl (fun s name => s.note (.ended name)) s

/-- A new hook, armed if there is a name. -/
def addHook (s : Stage ω ε) (name : Option String) : Stage ω ε × HookId :=
  ({ s with hooks := s.hooks.push name }, ⟨s.hooks.size⟩)

/-- Disarms a hook. -/
def disarm (s : Stage ω ε) (hook : HookId) : Stage ω ε :=
  { s with hooks := s.hooks.modify hook.index fun _ => none }

/-- Fires a hook: the first time it announces the closing of its stream. -/
def fire (s : Stage ω ε) (hook : HookId) : Stage ω ε :=
  match s.hooks[hook.index]? with
  | some (some name) => (s.note (.closed name)).disarm hook
  | _ => s

/-- Disarms the hook of a stream that came to its end, which is noted the first time. -/
def retire (s : Stage ω ε) (hook : HookId) : Stage ω ε :=
  match s.hooks[hook.index]? with
  | some (some name) => (s.note (.ended name)).disarm hook
  | _ => s

/-- Fires a hook, if there is one. -/
def fireAny (s : Stage ω ε) (hook : Option HookId) : Stage ω ε :=
  match hook with
  | some h => s.fire h
  | none => s

/-- Drops a piece of work: streams that are open in it are closed. -/
def dropWork (s : Stage ω ε) (work : ω) : Stage ω ε :=
  (s.noteClosed (Work.openStreams work)).fireAny (Work.hook work)

/-- Drops pieces of work. -/
def dropAll (s : Stage ω ε) (work : List ω) : Stage ω ε := work.foldl dropWork s

/-- Closes a stream: its hook is fired, and the work that fetches its items never runs again. -/
def closeStream (s : Stage ω ε) (id : StreamId) : Stage ω ε :=
  let s := s.fireAny ((s.publisher.stream? id).bind StreamRecord.hook)
  let keep (work : ω) : Bool := Work.drives work ≠ some id
  { s with
    work := s.work.filter keep
    publisher := { s.publisher with inbox := s.publisher.inbox.filter keep } }

/-- Closes streams. -/
def closeStreams (s : Stage ω ε) (ids : List StreamId) : Stage ω ε :=
  ids.foldl closeStream s

/-- Changes the publisher, and closes the streams that have to be closed after it. -/
def publishAndClose (s : Stage ω ε)
    (f : Publisher ω → Publisher ω × List StreamId) : Stage ω ε :=
  let (publisher, ids) := f s.publisher
  closeStreams { s with publisher := publisher } ids

/-- Puts work into the inbox; once the publisher is closed it is dropped. -/
def spawn (s : Stage ω ε) (work : ω) : Stage ω ε :=
  if s.publisher.closed then dropWork s work
  else { s with publisher := { s.publisher with inbox := s.publisher.inbox ++ [work] } }

/-- Takes the work out of the inbox. -/
def takeInbox (s : Stage ω ε) : Stage ω ε :=
  { s with
    work := { s.work with ready := s.work.ready ++ s.publisher.inbox }
    publisher := { s.publisher with inbox := [] } }

/-- Closes the publisher to new work and drops the work in the inbox. -/
def closeInbox (s : Stage ω ε) : Stage ω ε :=
  let inbox := s.publisher.inbox
  dropAll { s with publisher := { s.publisher with inbox := [], closed := true } } inbox

/-- Closes the publisher: all streams are closed and no work is left. -/
def close (s : Stage ω ε) : Stage ω ε :=
  let ids := (List.range s.publisher.streams.size).map StreamId.mk
  closeInbox (closeStreams s ids)

/-- Drops all work that was taken. -/
def dropTaken (s : Stage ω ε) : Stage ω ε :=
  let work := s.work.all
  dropAll { s with work := {} } work

/-! ### Time -/

/-- Starts a timer or looks at it again: `none` once it is due. -/
def pollTimer (s : Stage ω ε) (t : Timer) : Stage ω ε × Option Timer :=
  match t with
  | .fresh ticks =>
    if ticks = 0 then (s, none)
    else
      ({ s with timersStarted := s.timersStarted + 1 },
        some (.waiting ⟨s.now + ticks, s.timersStarted⟩))
  | .waiting deadline => (s, if deadline.time ≤ s.now then none else some t)

/-- The earliest time to come of some deadlines, and of those of the work that was taken. -/
def nextTime? (s : Stage ω ε) (others : List Deadline) : Option Nat :=
  (((others ++ s.work.all.flatMap Work.deadlines).map Deadline.time).filter (s.now < ·)).min?

/-- The order in which the first due one of some deadlines started to wait. -/
def firstDue? (now : Nat) (deadlines : List Deadline) : Option Nat :=
  ((deadlines.filter (·.time ≤ now)).map Deadline.order).min?

/-- Some things that wait, each with its deadlines: those with a due one, in the order in which their first due ones
started to wait. -/
def dueFirst {α : Type} (now : Nat) (deadlines : α → List Deadline) (xs : List α) : List α :=
  let due := xs.filterMap fun x => (firstDue? now (deadlines x)).map fun order => (order, x)
  (due.mergeSort fun a b => a.1 ≤ b.1).map (·.2)

/-- Moves the clock forward, and makes the work ready whose timers are due. -/
def advanceTo (s : Stage ω ε) (time : Nat) : Stage ω ε :=
  let woken := dueFirst time Work.deadlines s.work.waiting
  let sleeping := s.work.waiting.filter fun x => (firstDue? time (Work.deadlines x)).isNone
  { s with now := time, work := ⟨s.work.ready ++ woken, sleeping⟩ }

end Stage

end GraphQL
