import GraphQL.Delivery.Stage

/-!
# Streams of items

A stream of items is a script: items, and waits between them.  At its end it is over, or it hangs and never ends.  It
can carry a name under which its closing is noticed, as long as it is armed: once the stream is over or gave an error
nothing is left to close.
-/

namespace GraphQL

/-- One step of a stream whose items have outcomes of type `α`. -/
inductive StreamStep (α : Type) where
  | wait (ticks : Nat)
  | item (outcome : α)
deriving Repr

/-- A stream of items with outcomes of type `α`. -/
structure ItemStreamOf (α : Type) where
  steps : List (StreamStep α)
  /-- Whether it never ends after the last step. -/
  hangs : Bool := false
  /-- The name under which its closing is noticed. -/
  armed : Option String := none
  finished : Bool := false
  /-- The timer of the wait that it is in. -/
  timer : Option Timer := none
deriving Repr, Inhabited

/-- What asking a stream for an item gives. -/
inductive Polled (α : Type) where
  | item (outcome : α)
  | ended
  /-- Nothing until time goes on. -/
  | waiting

namespace ItemStreamOf

variable {α ω ε : Type}

/-- The deadline that the stream waits for. -/
def deadlines (s : ItemStreamOf α) : List Deadline := (s.timer.map Timer.deadlines).getD []

/-- The name of the stream while it is open. -/
def openName (s : ItemStreamOf α) : List String := if s.finished then [] else s.armed.toList

/-- Ends a stream: no item comes from it any more, and its closing is not noticed. -/
def finish (s : ItemStreamOf α) : ItemStreamOf α := { s with finished := true, armed := none, timer := none }

/-- Goes through the steps up to the next item, the end, or a wait that is not over. -/
def advance (isError : α → Bool) (stage : Stage ω ε) (s : ItemStreamOf α) :
    (timer : Option Timer) → (steps : List (StreamStep α)) → Stage ω ε × ItemStreamOf α × Polled α
  | _, [] =>
    if s.hangs then (stage, { s with steps := [], timer := none }, .waiting)
    else (stage, { s.finish with steps := [] }, .ended)
  | _, .item outcome :: rest =>
    let s := { s with steps := rest, timer := none }
    (stage, if isError outcome then s.finish else s, .item outcome)
  | timer, .wait ticks :: rest =>
    match stage.pollTimer (timer.getD (.fresh ticks)) with
    | (stage, none) => advance isError stage s none rest
    | (stage, some timer) =>
      (stage, { s with steps := .wait ticks :: rest, timer := some timer }, .waiting)

/-- Asks for the next item.  After the end and after an error there is none. -/
def poll (isError : α → Bool) (stage : Stage ω ε) (s : ItemStreamOf α) :
    Stage ω ε × ItemStreamOf α × Polled α :=
  if s.finished then (stage, s, .ended) else advance isError stage s s.timer s.steps

/-- Notices the closing of the stream, the first time. -/
def fire (s : ItemStreamOf α) : ItemStreamOf α × List String := ({ s with armed := none }, s.armed.toList)

/-- Takes the name away, so that closing the stream is not noticed. -/
def disarm (s : ItemStreamOf α) : ItemStreamOf α := { s with armed := none }

/-- Closes the stream: it gives no more items. -/
def close (s : ItemStreamOf α) : ItemStreamOf α × List String := { s with finished := true }.fire

end ItemStreamOf

end GraphQL
