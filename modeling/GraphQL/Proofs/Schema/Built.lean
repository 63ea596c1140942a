import GraphQL.Proofs.Requests

/-!
# Built schemas

A schema is built from a draft, to which types and directives were added one after the other.  So types, and the fields of
input objects, are found under their own names (`Schema.Built.keyed`).
-/

namespace GraphQL

namespace Dict

variable {α : Type}

theorem contains_iff {d : Dict α} {key : String} : contains d key = true ↔ key ∈ keys d := by
  unfold contains
  induction d with
  | nil => simp [keys]
  | cons e rest ih =>
    obtain ⟨k, v⟩ := e
    unfold get?
    split
    · rename_i hk
      simp [keys, hk]
    · rename_i hk
      rw [ih]
      simp [keys, Ne.symm hk]

end Dict

/-- The fields of the object are found under their own names, and each of them once. -/
structure InputObjectDef.Keyed (d : InputObjectDef) : Prop where
  name : ∀ e ∈ d.fields, e.2.name = e.1
  nodup : (Dict.keys d.fields).Nodup

/-- A type whose fields, if it is an input object, are found under their own names. -/
def TypeDef.Keyed : TypeDef → Prop
  | inputObject d => d.Keyed
  | _ => True

/-- A draft to which types and directives were added one after the other. -/
inductive SchemaDraft.Drafted : SchemaDraft → Prop
  | start (query mutation subscription : Option String) :
      Drafted { query := query, mutation := mutation, subscription := subscription }
  | addType {d : SchemaDraft} (h : Drafted d) {type : TypeDef} (htype : type.Keyed) : Drafted (d.addType type)
  | addDirective {d : SchemaDraft} (h : Drafted d) (directive : DirectiveDef) : Drafted (d.addDirective directive)

/-- The schema was built from a draft. -/
def Schema.Built (s : Schema) : Prop := ∃ d : SchemaDraft, d.Drafted ∧ d.build = .ok s

theorem SchemaDraft.Drafted.keyed {d : SchemaDraft} (h : d.Drafted) {name : String} {type : TypeDef}
    (htype : Dict.get? d.types name = some type) : type.name = name ∧ type.Keyed := by
  induction h with
  | start =>
    have hmem : (name, type) ∈ ScalarDef.builtin.map fun d => (d.name, TypeDef.scalar d) := Dict.mem_of_get? htype
    obtain ⟨scalar, -, heq⟩ := List.mem_map.1 hmem
    obtain ⟨rfl, rfl⟩ := Prod.mk.inj heq
    exact ⟨rfl, trivial⟩
  | @addType d _ added hadded ih =>
    change Dict.get? (Dict.insert d.types added.name added) name = some type at htype
    rw [Dict.get?_insert] at htype
    split at htype
    · rename_i heq
      obtain rfl := Option.some.inj htype
      exact ⟨heq, hadded⟩
    · exact ih htype
  | addDirective _ _ ih => exact ih htype

/-- The types of a built schema are found under their own names, and so are the fields of input objects. -/
theorem Schema.Built.keyed {s : Schema} (h : s.Built) {name : String} {type : TypeDef}
    (htype : Dict.get? s.types name = some type) : type.name = name ∧ type.Keyed := by
  obtain ⟨d, hd, hbuild⟩ := h
  obtain ⟨query, -, rfl⟩ := SchemaDraft.eq_of_build hbuild
  exact hd.keyed htype

/-- Steps that all succeed. -/
theorem List.forM_eq_ok {ε α : Type} {f : α → Except ε PUnit} {xs : List α} :
    xs.forM f = .ok ⟨⟩ ↔ ∀ x ∈ xs, f x = .ok ⟨⟩ := by
  induction xs with
  | nil => simp [List.forM, pure, Except.pure]
  | cons x rest ih =>
    have hcons : (x :: rest).forM f = (f x).bind fun _ => rest.forM f := rfl
    rw [hcons, List.forall_mem_cons, ← ih]
    cases f x with
    | error e => simp [Except.bind]
    | ok u => simp [Except.bind]

/-- All types of a draft that can be built pass their checks. -/
theorem SchemaDraft.checkType_of_build {d : SchemaDraft} {schema : Schema} (h : d.build = .ok schema) :
    ∀ type ∈ Dict.values d.types, d.checkType type = .ok ⟨⟩ := by
  refine List.forM_eq_ok.1 ?_
  unfold build at h
  cases hq : d.query with
  | none =>
    rw [hq] at h
    exact absurd h (by simp [throw, throwThe, MonadExceptOf.throw])
  | some query =>
    rw [hq] at h
    dsimp only [bind, Except.bind] at h
    split at h
    · exact absurd h (by simp)
    split at h
    · exact absurd h (by simp)
    split at h
    · exact absurd h (by simp)
    split at h
    · exact absurd h (by simp)
    · assumption

/-- The fields of the input objects of a built schema have input types. -/
theorem Schema.Built.isInput {s : Schema} (h : s.Built) {name : String} {d : InputObjectDef}
    (hd : Dict.get? s.types name = some (.inputObject d)) {field : InputFieldDef} (hfield : field ∈ Dict.values d.fields) :
    (s.typeKind? field.type.innermost).any TypeKind.isInput = true := by
  obtain ⟨draft, -, hbuild⟩ := h
  obtain ⟨query, -, rfl⟩ := SchemaDraft.eq_of_build hbuild
  have hcheck : draft.checkType (.inputObject d) = .ok ⟨⟩ :=
    SchemaDraft.checkType_of_build hbuild _ (List.mem_map.2 ⟨_, Dict.mem_of_get? hd, rfl⟩)
  have hinput := List.forM_eq_ok.1 hcheck field hfield
  unfold SchemaDraft.checkInput SchemaDraft.lookup at hinput
  unfold typeKind?
  dsimp only
  cases htype : Dict.get? draft.types field.type.innermost with
  | none =>
    rw [htype] at hinput
    exact absurd hinput (by simp [bind, Except.bind])
  | some type =>
    rw [htype] at hinput
    cases hkind : type.kind.isInput with
    | false =>
      simp only [bind, Except.bind, hkind] at hinput
      exact absurd hinput (by simp [throw, throwThe, MonadExceptOf.throw])
    | true => exact hkind

end GraphQL
