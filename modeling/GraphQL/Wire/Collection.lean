import GraphQL.Collection.FieldGroup
import GraphQL.Json.Basic

/-!
# Collected fields in JSON

Groups, targets and uses of `@defer` are written with their numbers.
-/

namespace GraphQL

namespace FieldDetails

/-- The name of the field, where it is written, and the number of its target. -/
def toJson (d : FieldDetails) : Json :=
  let place := d.node.location
  .array [.string d.node.name.value, .ofNat place.line, .ofNat place.column, .ofNat d.target.id]

end FieldDetails

namespace GroupedFieldSet

/-- The groups with their response keys. -/
def toJson (set : GroupedFieldSet) : Json :=
  .ofList (fun (key, g) =>
    .object [("key", .string key), ("id", .ofNat g.id), ("targets", .ofList .ofNat g.targets.ids),
      ("fields", .ofList FieldDetails.toJson g.fields)]) set

end GroupedFieldSet

namespace NewFieldSet

/-- The targets, whether a fragment begins with the set, and the groups. -/
def toJson (s : NewFieldSet) : Json :=
  .object [("targets", .ofList .ofNat s.targets.ids),
    ("usages", .ofList (fun u => .ofNat u.id) s.targets.usages),
    ("initiate", .bool s.initiatesDefer), ("fields", s.fields.toJson)]

end NewFieldSet

namespace DeferUsage

/-- The number, the label and the numbers of the targets around. -/
def toJson (u : DeferUsage) : Json :=
  .array [.ofNat u.id, .ofOption .string u.label, .ofList .ofNat u.ancestors]

end DeferUsage

namespace CollectedFields

/-- The fields, the other sets, and the new uses of `@defer`. -/
def toJson (c : CollectedFields) : Json :=
  .object [("fields", c.fields.toJson), ("new", .ofList NewFieldSet.toJson c.newSets),
    ("defers", .ofList DeferUsage.toJson c.newUsages)]

end CollectedFields

end GraphQL
