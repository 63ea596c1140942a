import GraphQL.Execution.Context
import GraphQL.Wire.Fields

/-!
# The configuration in JSON

Settings that are left out have their defaults.
-/

namespace GraphQL

namespace ExecutionConfig

/-- Writes all settings. -/
def toJson (c : ExecutionConfig) : Json :=
  .object [("incremental_delivery", .bool c.incrementalDelivery), ("field_tracing", .bool c.fieldTracing)]

/-- Reads the settings. -/
def ofJson? (j : Json) : Option ExecutionConfig := do
  let p ← Wire.Parts.of? 2 j
  let incrementalDelivery ← p.withDefault 0 "incremental_delivery" true Wire.bool?
  let fieldTracing ← p.withDefault 1 "field_tracing" false Wire.bool?
  return ⟨incrementalDelivery, fieldTracing⟩

end ExecutionConfig

end GraphQL
