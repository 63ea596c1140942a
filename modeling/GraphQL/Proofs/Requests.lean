import GraphQL.Execution.Session

/-!
# Requests without their text

Queries are put together here from their selections, to say how particular ones are executed.  All names stand at the
same place of the source, and the schema has the built-in types and directives besides its own types.
-/

namespace GraphQL

namespace Selection

private def noSpan : Span := .empty 0

/-- A field, with the selections below it. -/
def named (name : String) (below : List Selection := []) : Selection :=
  .field ⟨none, ⟨name, noSpan⟩, [], [], if below.isEmpty then none else some ⟨below, noSpan⟩, noSpan, ⟨1, 1⟩⟩

/-- A list field with `@stream`. -/
def streamed (name : String) : Selection :=
  .field ⟨none, ⟨name, noSpan⟩, [], [⟨⟨"stream", noSpan⟩, [], noSpan⟩], none, noSpan, ⟨1, 1⟩⟩

/-- An inline fragment with `@defer`. -/
def deferred (below : List Selection) : Selection :=
  .inline ⟨none, [⟨⟨"defer", noSpan⟩, [], noSpan⟩], ⟨below, noSpan⟩, noSpan⟩

/-- An inline fragment with `@defer` and a label. -/
def deferredAs (label : String) (below : List Selection) : Selection :=
  .inline ⟨none, [⟨⟨"defer", noSpan⟩, [⟨⟨"label", noSpan⟩, .string label, noSpan⟩], noSpan⟩], ⟨below, noSpan⟩, noSpan⟩

/-- The use of a named fragment. -/
def spreadOf (name : String) : Selection := .spread ⟨⟨name, noSpan⟩, [], noSpan⟩

end Selection

/-- An object type by the types of its fields. -/
def TypeDef.ofFields (name : String) (fields : List (String × TypeRef)) : TypeDef :=
  .object { name := name, fields := fields.map fun f => (f.1, { name := f.1, type := f.2 }) }

/-- A draft of a schema with the root type `Query`. -/
def SchemaDraft.ofTypes (types : List TypeDef) : SchemaDraft :=
  types.foldl SchemaDraft.addType { query := some "Query" }

/-- A schema has what its draft has. -/
theorem SchemaDraft.eq_of_build {d : SchemaDraft} {schema : Schema} (h : d.build = .ok schema) :
    ∃ query, d.query = some query ∧ schema = ⟨query, d.mutation, d.subscription, d.types, d.directives⟩ := by
  unfold SchemaDraft.build at h
  cases hq : d.query with
  | none =>
    rw [hq] at h
    exact absurd h (by simp [throw, throwThe, MonadExceptOf.throw])
  | some query =>
    refine ⟨query, rfl, ?_⟩
    rw [hq] at h
    dsimp only [bind, Except.bind] at h
    split at h
    · exact absurd h (by simp)
    split at h
    · exact absurd h (by simp)
    split at h
    · exact absurd h (by simp)
    split at h
    · exact absurd h (by simp)
    · exact (Except.ok.inj h).symm

theorem SchemaDraft.ofTypes_roots (types : List TypeDef) : (ofTypes types).query = some "Query" ∧
    (ofTypes types).mutation = none ∧ (ofTypes types).subscription = none :=
  List.foldlRecOn (motive := fun d : SchemaDraft => d.query = some "Query" ∧ d.mutation = none ∧ d.subscription = none)
    types _ ⟨rfl, rfl, rfl⟩ fun _ h _ _ => h

namespace Request

/-- A request for some selections. -/
def ofSelections (root : Json) (selections : List Selection) : Request where
  document := ⟨[.operation ⟨.query, none, [], [], ⟨selections, .empty 0⟩, .empty 0⟩], .empty 0⟩
  rootValue := root

end Request

namespace ExecutionContext

/-- What the execution of some selections depends on. -/
def ofSelections (types : List TypeDef) (resolvers : Dict Resolver) (root : Json) (selections : List Selection) :
    ExecutionContext where
  schema := ⟨"Query", none, none, (SchemaDraft.ofTypes types).types, (SchemaDraft.ofTypes types).directives⟩
  resolvers := { resolvers := resolvers }
  config := {}
  document := (Request.ofSelections root selections).document
  operation := ⟨.query, none, [], [], ⟨selections, .empty 0⟩, .empty 0⟩
  rootType := "Query"
  rootValue := root
  context := []
  vars := []

/-- It is what the request depends on, if the types are those of a schema. -/
theorem prepare_ofSelections {types : List TypeDef} {schema : Schema}
    (h : (SchemaDraft.ofTypes types).build = .ok schema) (resolvers : Dict Resolver) (root : Json)
    (selections : List Selection) :
    Executor.prepare { schema := schema, resolvers := { resolvers := resolvers } }
      (Request.ofSelections root selections) = .ok (ofSelections types resolvers root selections) := by
  obtain ⟨query, hquery, rfl⟩ := SchemaDraft.eq_of_build h
  obtain ⟨hq, hm, hs⟩ := SchemaDraft.ofTypes_roots types
  obtain rfl : query = "Query" := by
    rw [hq] at hquery
    exact (Option.some.inj hquery).symm
  rw [hm, hs]
  rfl

end ExecutionContext

end GraphQL
