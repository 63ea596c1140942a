import GraphQL.Collection.FieldGroup

/-!
# Masking

Collection meets fields one after the other, each under a response key and in a target.  A key is delivered in those
of its targets that have none of its other targets around them: what is delivered earlier anyway need not be
delivered again.  Keys with the same such targets as the fields around them stay with these, and the others form new
sets by their targets.
-/

namespace GraphQL

/-- A field that collection met. -/
structure Occurrence where
  key : String
  target : Target
  node : Field
deriving Inhabited

namespace Occurrence

variable (met : List Occurrence)

/-- The response keys in the order in which they were first met. -/
def keys : List String := (met.map Occurrence.key).eraseDups

/-- The fields that were met under a key. -/
def ofKey (key : String) : List Occurrence := met.filter (·.key = key)

/-- The targets of a key, in the order in which they were first met. -/
def targetsOf (key : String) : List Target := ((ofKey met key).map Occurrence.target).eraseDups

/-- The targets of a key that have no other target of the key around them. -/
def maskingTargets (key : String) : List Target :=
  let targets := targetsOf met key
  targets.filter fun t => t.ancestors.all fun a => !(targets.map Target.id).contains a

/-- The set in which a key is delivered. -/
def maskingSet (key : String) : TargetSet := .ofList (maskingTargets met key)

/-- The fields of a key, by target. -/
def details (key : String) : List FieldDetails :=
  (targetsOf met key).flatMap fun t =>
    ((ofKey met key).filter (·.target = t)).map fun o => ⟨o.node, t⟩

/-- The groups of some keys, numbered from `next` on. -/
def groups (targets : TargetSet) : (next : Nat) → (keys : List String) → GroupedFieldSet
  | _, [] => []
  | next, key :: rest =>
    match details met key with
    | [] => groups targets next rest
    | first :: others => (key, ⟨next, first, others, targets⟩) :: groups targets (next + 1) rest

/-- The sets other than the one around the fields, in the order in which they were first met. -/
def newTargetSets (parent : TargetSet) : List TargetSet :=
  (((keys met).map (maskingSet met)).filter (· ≠ parent)).eraseDups

/-- The keys that are delivered in a set. -/
def keysOf (targets : TargetSet) : List String :=
  (keys met).filter fun key => maskingSet met key = targets

/-- The new sets, their groups numbered from `next` on. -/
def newSets (parent : TargetSet) : (next : Nat) → List TargetSet → List NewFieldSet
  | _, [] => []
  | next, targets :: rest =>
    let fields := groups met targets next (keysOf met targets)
    ⟨targets, fields, targets.targets.any fun t => !parent.contains t⟩ ::
      newSets parent (next + fields.length) rest

/-- Sorts what was met into the set around the fields and new sets.  Groups are numbered from `next` on, those of the
set around the fields first; the next free number comes with the result. -/
def partition (parent : TargetSet) (next : Nat) (usages : List DeferUsage) : CollectedFields × Nat :=
  let fields := groups met parent next (keysOf met parent)
  let sets := newSets met parent (next + fields.length) (newTargetSets met parent)
  (⟨fields, sets, usages⟩, next + fields.length + (sets.flatMap NewFieldSet.fields).length)

end Occurrence

end GraphQL
