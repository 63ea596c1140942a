import GraphQL.Document.Basic
import GraphQL.Dict

/-!
# Groups of fields

Field collection gathers the selections of a response key into one group, together with the targets in which the
group is delivered: the initial result, or fragments with `@defer`.
-/

namespace GraphQL

/-- A use of `@defer`.  Its ancestors are the ids of the targets around it, the nearest first. -/
structure DeferUsage where
  id : Nat
  label : Option String
  ancestors : List Nat
deriving DecidableEq, Repr, Inhabited

/-- Where collected fields are delivered. -/
inductive Target where
  | initial
  | deferred (usage : DeferUsage)
deriving DecidableEq, Repr, Inhabited

namespace Target

/-- The id of the initial result is zero, those of deferred fragments are positive. -/
def id : Target → Nat
  | initial => 0
  | deferred usage => usage.id

/-- The use of `@defer` that a target stands for. -/
def usage? : Target → Option DeferUsage
  | initial => none
  | deferred usage => some usage

/-- The ids of the targets around a target, the nearest first. -/
def ancestors : Target → List Nat
  | initial => []
  | deferred usage => usage.ancestors

end Target

/-- Targets in the order of their ids, without repetition. -/
structure TargetSet where
  targets : List Target
deriving DecidableEq, Repr, Inhabited

namespace TargetSet

/-- Puts a target into its place, unless one with its id is there. -/
def insertSorted (t : Target) : List Target → List Target
  | [] => [t]
  | u :: rest =>
    if t.id < u.id then t :: u :: rest
    else if t.id = u.id then u :: rest
    else u :: insertSorted t rest

/-- The set of some targets. -/
def ofList (ts : List Target) : TargetSet := ⟨ts.foldl (fun sorted t => insertSorted t sorted) []⟩

/-- The initial result alone. -/
def initial : TargetSet := ⟨[.initial]⟩

/-- The ids of the targets. -/
def ids (s : TargetSet) : List Nat := s.targets.map Target.id

/-- Whether a target is in the set. -/
def contains (s : TargetSet) (t : Target) : Bool := s.ids.contains t.id

/-- The uses of `@defer` in the set. -/
def usages (s : TargetSet) : List DeferUsage := s.targets.filterMap Target.usage?

end TargetSet

/-- A field as it was met in some target. -/
structure FieldDetails where
  node : Field
  target : Target
deriving Inhabited

/-- The fields of one response key, and the targets in which they are delivered. -/
structure FieldGroup where
  id : Nat
  first : FieldDetails
  others : List FieldDetails
  targets : TargetSet
deriving Inhabited

namespace FieldGroup

/-- All fields of the group. -/
def fields (g : FieldGroup) : List FieldDetails := g.first :: g.others

/-- The nodes of all fields of the group. -/
def nodes (g : FieldGroup) : List Field := g.fields.map FieldDetails.node

/-- The locations of all fields of the group. -/
def locations (g : FieldGroup) : List Location := g.nodes.map FieldOf.location

end FieldGroup

/-- Groups by response key. -/
abbrev GroupedFieldSet := Dict FieldGroup

/-- A grouped field set that is not delivered with the fields around it. -/
structure NewFieldSet where
  targets : TargetSet
  fields : GroupedFieldSet
  /-- Whether one of its targets is not among those of the fields around it. -/
  initiatesDefer : Bool
deriving Inhabited

/-- What collection finds: the fields that are delivered with those around them, the other sets of fields, and the
uses of `@defer` that were met. -/
structure CollectedFields where
  fields : GroupedFieldSet
  newSets : List NewFieldSet
  newUsages : List DeferUsage
deriving Inhabited

end GraphQL
