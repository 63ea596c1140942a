import GraphQL.Delivery.Payload
import GraphQL.Wire.Error

/-!
# Reading payloads

The inverse of how responses and results are written.  Labels and errors may be left out.
-/

namespace GraphQL

namespace Wire.Parts

/-- The label of an entry. -/
def label (p : Parts) (position : Nat) : Option (Option String) :=
  p.optionalWithDefault position "label" Wire.text?

/-- The errors of an entry. -/
def errors (p : Parts) (position : Nat) : Option (List Error) :=
  p.withDefault position "errors" [] (Wire.list? Error.ofJson?)

end Wire.Parts

namespace Response

/-- Reads a response; null data is read as no data. -/
def ofJson? (j : Json) : Option Response := do
  let p ← Wire.Parts.of? 2 j
  let data ← p.optionalWithDefault 0 "data" Wire.any?
  let errors ← p.errors 1
  return ⟨data, errors⟩

end Response

namespace InitialResult

/-- Reads the first result. -/
def ofJson? (j : Json) : Option InitialResult := do
  let p ← Wire.Parts.of? 3 j
  let data ← p.required 0 "data" Wire.any?
  let errors ← p.errors 1
  let hasNext ← p.required 2 "hasNext" Wire.bool?
  return ⟨data, errors, hasNext⟩

end InitialResult

namespace DeferEntry

/-- Reads the data of a deferred fragment. -/
def ofJson? (j : Json) : Option DeferEntry := do
  let p ← Wire.Parts.of? 4 j
  let data ← p.required 0 "data" Wire.any?
  let path ← p.required 1 "path" Path.ofJson?
  let label ← p.label 2
  let errors ← p.errors 3
  return ⟨data, path, label, errors⟩

end DeferEntry

namespace StreamEntry

/-- Reads items of a streamed list. -/
def ofJson? (j : Json) : Option StreamEntry := do
  let p ← Wire.Parts.of? 4 j
  let items ← p.required 0 "items" (Wire.list? Wire.any?)
  let path ← p.required 1 "path" Path.ofJson?
  let label ← p.label 2
  let errors ← p.errors 3
  return ⟨items, path, label, errors⟩

end StreamEntry

namespace IncrementalEntry

/-- Reads an entry: data of a fragment if that is possible, otherwise items. -/
def ofJson? (j : Json) : Option IncrementalEntry :=
  ((DeferEntry.ofJson? j).map defer).orElse fun _ => (StreamEntry.ofJson? j).map stream

end IncrementalEntry

namespace CompletedEntry

/-- Reads a completed fragment or list. -/
def ofJson? (j : Json) : Option CompletedEntry := do
  let p ← Wire.Parts.of? 3 j
  let path ← p.required 0 "path" Path.ofJson?
  let label ← p.label 1
  let errors ← p.errors 2
  return ⟨path, label, errors⟩

end CompletedEntry

namespace SubsequentResult

/-- Reads a result after the first one. -/
def ofJson? (j : Json) : Option SubsequentResult := do
  let p ← Wire.Parts.of? 3 j
  let incremental ← p.withDefault 0 "incremental" [] (Wire.list? IncrementalEntry.ofJson?)
  let completed ← p.withDefault 1 "completed" [] (Wire.list? CompletedEntry.ofJson?)
  let hasNext ← p.required 2 "hasNext" Wire.bool?
  return ⟨incremental, completed, hasNext⟩

end SubsequentResult

end GraphQL
