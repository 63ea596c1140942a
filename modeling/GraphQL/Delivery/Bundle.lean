/-!
# Bundles

The results of a source are gathered into bundles, each of data or of errors.  A bundle is passed on when it is full,
when it has been open for an interval, when a result of the other kind comes, and at the end.  After a total number
of results the source is not looked at any more.
-/

namespace GraphQL

/-- When bundles are passed on. -/
structure BundleLimits where
  /-- The size at which a bundle is full; zero counts as one. -/
  size : Nat := 1
  /-- How long a bundle is open at most. -/
  interval : Option Nat := none
  /-- How many results are taken in all; the first one is always taken. -/
  total : Option Nat := none
deriving DecidableEq, Repr, Inhabited

/-- Results of one kind, from an index of the source on. -/
inductive Bundle (ε α : Type) where
  | data (start : Nat) (items : List α)
  | errors (start : Nat) (errors : List ε)
deriving DecidableEq, Repr

namespace Bundle

variable {ε α : Type}

/-- A bundle of one result. -/
def first (start : Nat) : Except ε α → Bundle ε α
  | .ok item => data start [item]
  | .error e => errors start [e]

/-- A bundle with one more result of its kind. -/
def push? : Bundle ε α → Except ε α → Option (Bundle ε α)
  | data start items, .ok item => some (data start (items ++ [item]))
  | errors start es, .error e => some (errors start (es ++ [e]))
  | _, _ => none

/-- The index of the first result. -/
def start : Bundle ε α → Nat
  | data start _ => start
  | errors start _ => start

/-- The number of results. -/
def length : Bundle ε α → Nat
  | data _ items => items.length
  | errors _ es => es.length

/-- Whether the results are data. -/
def isData : Bundle ε α → Bool
  | data .. => true
  | errors .. => false

end Bundle

namespace BundleLimits

variable {ε α : Type} (limits : BundleLimits)

/-- Whether a bundle is full. -/
def isFull (b : Bundle ε α) : Bool := max limits.size 1 ≤ b.length

/-- Whether all results that are wanted were taken. -/
def isEnough (seen : Nat) : Bool :=
  match limits.total with
  | some total => total ≤ seen
  | none => false

end BundleLimits

/-- A bundler at work: the bundle that is open, when the timer for it expires, how many results were taken, and
whether no more are. -/
structure Bundler (ε α : Type) where
  opened : Option (Bundle ε α) := none
  deadline : Option Nat := none
  seen : Nat := 0
  ended : Bool := false
deriving DecidableEq, Repr

/-- What a bundler waits for: a result at a time, the expiry of its timer, and the end of the source. -/
inductive BundlerSignal (ε α : Type) where
  | result (time : Nat) (r : Except ε α)
  | expired
  | ended

namespace Bundler

variable {ε α : Type}

/-- Passes the open bundle on and forgets the timer. -/
def flush (b : Bundler ε α) : Bundler ε α × List (Bundle ε α) :=
  ({ b with opened := none, deadline := none }, b.opened.toList)

/-- Puts a result into the open bundle if that is of its kind, and otherwise into a new one: that bundle, the time to
which it is open, and the bundle of the other kind, which is passed on. -/
def enter (limits : BundleLimits) (b : Bundler ε α) (time : Nat) (r : Except ε α) :
    Bundle ε α × Option Nat × List (Bundle ε α) :=
  match b.opened.bind fun opened => opened.push? r with
  | some bundle => (bundle, b.deadline, [])
  | none => (.first b.seen r, limits.interval.map (time + ·), b.opened.toList)

/-- Takes a result.  The bundle that it is put into is passed on at once if it is full or if no more results are
taken. -/
def take (limits : BundleLimits) (b : Bundler ε α) (time : Nat) (r : Except ε α) :
    Bundler ε α × List (Bundle ε α) :=
  let (bundle, deadline, passed) := b.enter limits time r
  let enough := limits.isEnough (b.seen + 1)
  if limits.isFull bundle || enough then (⟨none, none, b.seen + 1, enough⟩, passed ++ [bundle])
  else (⟨some bundle, deadline, b.seen + 1, false⟩, passed)

/-- What a bundler does at a signal, and the bundles that it passes on.  Once it is over it does nothing. -/
def step (limits : BundleLimits) (b : Bundler ε α) (signal : BundlerSignal ε α) :
    Bundler ε α × List (Bundle ε α) :=
  if b.ended then (b, [])
  else
    match signal with
    | .result time r => b.take limits time r
    | .expired => b.flush
    | .ended => ({ b.flush.1 with ended := true }, b.flush.2)

end Bundler

/-- What comes from a source: waits, and results between them. -/
inductive SourceStep (ε α : Type) where
  | wait (time : Nat)
  | result (r : Except ε α)

/-- A source of results; one that hangs does not end after its last step. -/
structure Source (ε α : Type) where
  steps : List (SourceStep ε α)
  hangs : Bool := false

/-- The bundles of a source with the times at which they are passed on, and the time of the end, if there is one. -/
structure Bundling (ε α : Type) where
  bundles : List (Nat × Bundle ε α)
  stop : Option Nat

namespace Bundling

variable {ε α : Type}

/-- Passes bundles on before what follows. -/
def after (time : Nat) (passed : List (Bundle ε α)) (rest : Bundling ε α) : Bundling ε α :=
  { rest with bundles := passed.map (time, ·) ++ rest.bundles }

end Bundling

namespace BundleLimits

variable {ε α : Type} (limits : BundleLimits)

/-- Gathers the results of what is left of a source from a time on.  A timer expires if its time comes before the
next step of the source. -/
def gather (hangs : Bool) : (b : Bundler ε α) → (time : Nat) → List (SourceStep ε α) → Bundling ε α
  | b, time, [] =>
    if hangs then
      match b.deadline with
      | some deadline => Bundling.after deadline (b.step limits .expired).2 ⟨[], none⟩
      | none => ⟨[], none⟩
    else Bundling.after time (b.step limits .ended).2 ⟨[], some time⟩
  | b, time, .wait ticks :: rest =>
    match b.deadline.filter (· < time + ticks) with
    | some deadline =>
      let (b, passed) := b.step limits .expired
      Bundling.after deadline passed (gather hangs b (time + ticks) rest)
    | none => gather hangs b (time + ticks) rest
  | b, time, .result r :: rest =>
    let (b, passed) := b.step limits (.result time r)
    Bundling.after time passed (if b.ended then ⟨[], some time⟩ else gather hangs b time rest)

/-- Gathers the results of a source into bundles. -/
def bundle (source : Source ε α) : Bundling ε α := limits.gather source.hangs {} 0 source.steps

end BundleLimits

end GraphQL
