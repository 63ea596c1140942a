import GraphQL.Collection.Masking
import GraphQL.Directive

/-!
# Field collection

`collectFields` gathers the fields of the selection set of an operation, and `collectSubfields` those below a group of
fields, for one object type.  Fragments are followed wherever their type condition holds; a fragment without `@defer`
is followed once, one with `@defer` as often as it is used.  So a fragment that uses itself by way of `@defer` alone
would be followed forever, and that is an error.

The numbers for groups and uses of `@defer` are handed out by one collector, which also keeps what it collected for
each object type and group.
-/

namespace GraphQL

/-- What collection depends on throughout an operation. -/
structure CollectionContext where
  schema : Schema
  document : Document
  vars : Variables
  operation : OperationKind
  /-- Whether `@defer` is followed at all. -/
  incremental : Bool

/-- Why fields cannot be collected. -/
inductive CollectionError where
  | directive (reason : DirectiveError)
  | deferInSubscription
  /-- Fragments use themselves by way of `@defer`. -/
  | endlessFragments

namespace CollectionError

/-- The sentence for a reason. -/
def message : CollectionError → String
  | directive reason => reason.message
  | deferInSubscription =>
    "`@defer` directive not supported on subscription operations. " ++
      "Disable `@defer` by setting the `if` argument to `false`."
  | endlessFragments => "Fragments cannot use themselves."

/-- The error that a client gets. -/
def toError (e : CollectionError) : Error := .ofMessage e.message

end CollectionError

/-- What a walk through selections has met. -/
structure CollectionWalk where
  met : List Occurrence := []
  newUsages : List DeferUsage := []
  visited : List String := []
  nextUsage : Nat

/-- A walk that may fail; what it has met and numbered so far is kept. -/
abbrev CollectM := ExceptT CollectionError (StateM CollectionWalk)

namespace CollectionContext

variable (c : CollectionContext)

/-- Whether a fragment applies to an object type. -/
def conditionHolds (condition : Option Name) (objectType : String) : Bool :=
  match condition with
  | none => true
  | some name =>
    name.value = objectType ||
      ((c.schema.typeKind? name.value).any TypeKind.isAbstract && c.schema.isSubType name.value objectType)

/-- Whether a selection is included. -/
def included (directives : List Directive) : CollectM Bool :=
  match isIncluded c.schema directives c.vars with
  | .ok b => return b
  | .error e => throw (.directive e)

/-- How a fragment is deferred, if it is. -/
def deferred? (directives : List Directive) : CollectM (Option DeferDirective) :=
  if !c.incremental then return none
  else
    match deferOf? c.schema directives c.vars with
    | .error e => throw (.directive e)
    | .ok none => return none
    | .ok (some d) => if c.operation = .subscription then throw .deferInSubscription else return some d

/-- A new use of `@defer` inside a target. -/
def newUsage (label : Option String) (around : Target) : CollectM Target := do
  let walk ← get
  let usage : DeferUsage := ⟨walk.nextUsage, label, around.id :: around.ancestors⟩
  set { walk with nextUsage := walk.nextUsage + 1, newUsages := walk.newUsages ++ [usage] }
  return .deferred usage

/-- Notes a field. -/
def meet (node : Field) (target : Target) : CollectM Unit :=
  modify fun walk => { walk with met := walk.met ++ [⟨node.responseKey, target, node⟩] }

/-- The target inside a fragment: a new one if it is deferred. -/
def targetWithin (defer : Option DeferDirective) (target : Target) : CollectM Target :=
  match defer with
  | none => return target
  | some d => newUsage d.label target

/-- The selections to follow for one selection, with their target; a field has none and is noted. -/
def step (objectType : String) (target : Target) (selection : Selection) :
    CollectM (Option (List Selection × Target)) := do
  match selection with
  | .field node =>
    if ← c.included node.directives then meet node target
    return none
  | .inline node =>
    if !(← c.included node.directives) || !c.conditionHolds node.typeCondition objectType then return none
    else
      let target ← targetWithin (← c.deferred? node.directives) target
      return some (node.selectionSet.selections, target)
  | .spread node =>
    if !(← c.included node.directives) then return none
    else
      let defer ← c.deferred? node.directives
      let name := node.name.value
      if defer.isNone && (← get).visited.contains name then return none
      else
        match c.document.fragment? name with
        | none => return none
        | some fragment =>
          if !c.conditionHolds (some fragment.typeCondition) objectType then return none
          else
            if defer.isNone then modify fun walk => { walk with visited := name :: walk.visited }
            let target ← targetWithin defer target
            return some (fragment.selectionSet.selections, target)

/-- Walks through selections and those below them in the order in which they are written.  `depth` bounds how deep
fragments may lie inside one another. -/
def walk (objectType : String) : (depth : Nat) → (target : Target) → List Selection → CollectM Unit
  | 0, _, _ => throw .endlessFragments
  | depth + 1, target, selections =>
    selections.forM fun selection => do
      match ← c.step objectType target selection with
      | none => return ()
      | some (below, target) => walk objectType depth target below

mutual

/-- How deep inline fragments lie inside one another in a selection. -/
def selectionDepth : Selection → Nat
  | .field _ => 0
  | .spread _ => 0
  | .inline ⟨_, _, ⟨selections, _⟩, _⟩ => selectionsDepth selections + 1

/-- How deep inline fragments lie inside one another in selections. -/
def selectionsDepth : List Selection → Nat
  | [] => 0
  | s :: rest => max (selectionDepth s) (selectionsDepth rest)

end

/-- A bound on how deep a walk that ends can go: between two fragments that are followed without `@defer`, each
fragment is followed at most once with it. -/
def depthBound (selections : List Selection) : Nat :=
  let fragments := c.document.fragments
  let inline := (fragments.map fun f => selectionsDepth f.selectionSet.selections).foldl max
    (selectionsDepth selections)
  ((fragments.length + 1) * (fragments.length + 1) + 1) * (inline + 2)

end CollectionContext

/-- The numbers that are free, and what was collected below groups. -/
structure Collector where
  nextUsage : Nat := 1
  nextGroup : Nat := 0
  collected : List ((String × Nat) × CollectedFields) := []
deriving Inhabited

namespace Collector

/-- Ends a walk: its numbers are used up, and if it succeeded, what it met is sorted into sets. -/
def finish (collector : Collector) (parent : TargetSet)
    (outcome : Except CollectionError Unit × CollectionWalk) :
    Except CollectionError CollectedFields × Collector :=
  let (result, walk) := outcome
  let collector := { collector with nextUsage := walk.nextUsage }
  match result with
  | .error e => (.error e, collector)
  | .ok () =>
    let (fields, nextGroup) := Occurrence.partition walk.met parent collector.nextGroup walk.newUsages
    (.ok fields, { collector with nextGroup := nextGroup })

/-- Collects the fields of the selection set of an operation. -/
def collectFields (collector : Collector) (c : CollectionContext) (objectType : String)
    (selections : List Selection) : Except CollectionError CollectedFields × Collector :=
  let walk := c.walk objectType (c.depthBound selections) .initial selections
  collector.finish .initial (walk.run.run { nextUsage := collector.nextUsage })

/-- Collects the fields below all fields of a group. -/
def collectBelow (collector : Collector) (c : CollectionContext) (objectType : String)
    (group : FieldGroup) : Except CollectionError CollectedFields × Collector :=
  let walk := group.fields.forM fun details =>
    match details.node.selectionSet with
    | some set => c.walk objectType (c.depthBound set.selections) details.target set.selections
    | none => return ()
  collector.finish group.targets (walk.run.run { nextUsage := collector.nextUsage })

/-- What was already collected for an object type and a group. -/
def earlier? (collector : Collector) (objectType : String) (group : FieldGroup) : Option CollectedFields :=
  (collector.collected.find? (·.1 = (objectType, group.id))).map (·.2)

/-- Collects the fields below a group, once for each object type. -/
def collectSubfields (collector : Collector) (c : CollectionContext) (objectType : String)
    (group : FieldGroup) : Except CollectionError CollectedFields × Collector :=
  match collector.earlier? objectType group with
  | some fields => (.ok fields, collector)
  | none =>
    match collector.collectBelow c objectType group with
    | (.ok fields, collector) =>
      (.ok fields, { collector with collected := ((objectType, group.id), fields) :: collector.collected })
    | failed => failed

end Collector

end GraphQL
