import GraphQL.Coercion.Variables
import GraphQL.Proofs.Coercion.Literals

/-!
# Variables are bound all or none

A definition of a variable is satisfied by its input, by its default, or by neither if it may be null
(`VariableDefinition.Binds`), and otherwise there is one fault in it (`VariableDefinition.Faults`).  If all definitions are
satisfied, exactly the variables with an input or a default are bound, and otherwise each definition that is not satisfied is
reported once, in the order of the definitions (`variableValues_all_or_none`).
-/

namespace GraphQL

namespace VariableDefinition

/-- The type of a variable. -/
def typeRef (d : VariableDefinition) : TypeRef := .ofNode d.type

/-- How a definition is satisfied, with the value that the variable is bound to or none if it is left out. -/
inductive Binds (s : Schema) (inputs : Dict Json) (d : VariableDefinition) : Option Json → Prop
  | input {v w} (htype : s.IsInput d.typeRef) (hv : Dict.get? inputs d.name.value = some v)
      (h : Json.Reads s v d.typeRef w) : Binds s inputs d (some w)
  | default {l w} (htype : s.IsInput d.typeRef) (hv : Dict.get? inputs d.name.value = none) (hd : d.default = some l)
      (h : Literal.Means s [] l d.typeRef w) : Binds s inputs d (some w)
  | leftOut (htype : s.IsInput d.typeRef) (hv : Dict.get? inputs d.name.value = none) (hd : d.default = none)
      (h : d.typeRef.isNonNull = false) : Binds s inputs d none

/-- Why a definition is not satisfied. -/
inductive Faults (s : Schema) (inputs : Dict Json) (d : VariableDefinition) : VariableError → Prop
  | notInputType (htype : ¬ s.IsInput d.typeRef) : Faults s inputs d (.notInputType d.name.value d.typeRef)
  | invalidDefault {l} (htype : s.IsInput d.typeRef) (hv : Dict.get? inputs d.name.value = none)
      (hd : d.default = some l) (h : Literal.Misfits s [] l d.typeRef) : Faults s inputs d (.invalidDefault d.name.value)
  | missing (htype : s.IsInput d.typeRef) (hv : Dict.get? inputs d.name.value = none) (hd : d.default = none)
      (h : d.typeRef.isNonNull = true) : Faults s inputs d (.missing d.name.value d.typeRef)
  | unexpectedNull (htype : s.IsInput d.typeRef) (hv : Dict.get? inputs d.name.value = some .null)
      (h : d.typeRef.isNonNull = true) : Faults s inputs d (.unexpectedNull d.name.value d.typeRef)
  | invalid {v e} (htype : s.IsInput d.typeRef) (hv : Dict.get? inputs d.name.value = some v)
      (hnull : v = .null → d.typeRef.isNonNull = false) (h : Json.Violates s v d.typeRef)
      (he : v.coerce s d.typeRef = .error e) : Faults s inputs d (.invalid d.name.value v e)

/-- The definition is satisfied by the inputs. -/
def IsSatisfied (s : Schema) (inputs : Dict Json) (d : VariableDefinition) : Prop := ∃ o, d.Binds s inputs o

/-- What a client gets for a fault. -/
def report (d : VariableDefinition) (fault : VariableError) : Error :=
  { Error.ofMessage fault.message with locations := [d.location] }

variable {s : Schema} {inputs : Dict Json} {d : VariableDefinition}

/-- A variable with an input is bound to what the input is coerced to. -/
theorem value_input (htype : s.IsInput d.typeRef) {v : Json} (hv : Dict.get? inputs d.name.value = some v) :
    d.value s inputs = if v.isNull && d.typeRef.isNonNull then .error (.unexpectedNull d.name.value d.typeRef) else
      match v.coerce s d.typeRef with
      | .ok w => .ok (some w)
      | .error e => .error (.invalid d.name.value v e) := by
  have hinput : (s.typeKind? (TypeRef.ofNode d.type).innermost).any TypeKind.isInput = true := htype
  unfold value
  dsimp only
  rw [hinput, hv]
  rfl

/-- A variable without an input is bound to its default. -/
theorem value_default (htype : s.IsInput d.typeRef) (hv : Dict.get? inputs d.name.value = none) {l : Literal}
    (hd : d.default = some l) :
    d.value s inputs =
      match l.valueAt? s [] d.typeRef with
      | some w => .ok (some w)
      | none => .error (.invalidDefault d.name.value) := by
  have hinput : (s.typeKind? (TypeRef.ofNode d.type).innermost).any TypeKind.isInput = true := htype
  unfold value
  dsimp only
  rw [hinput, hv, hd]
  rfl

theorem value_missing (htype : s.IsInput d.typeRef) (hv : Dict.get? inputs d.name.value = none) (hd : d.default = none) :
    d.value s inputs = if d.typeRef.isNonNull then .error (.missing d.name.value d.typeRef) else .ok none := by
  have hinput : (s.typeKind? (TypeRef.ofNode d.type).innermost).any TypeKind.isInput = true := htype
  unfold value
  dsimp only
  rw [hinput, hv, hd]
  rfl

theorem value_notInputType (htype : ¬ s.IsInput d.typeRef) :
    d.value s inputs = .error (.notInputType d.name.value d.typeRef) := by
  have hinput : (s.typeKind? (TypeRef.ofNode d.type).innermost).any TypeKind.isInput = false :=
    Bool.eq_false_iff.2 htype
  unfold value
  dsimp only
  rw [hinput]
  rfl

/-- Every definition is satisfied or has a fault. -/
theorem value_cases (hs : s.Built) (inputs : Dict Json) (d : VariableDefinition) :
    (∃ o, d.value s inputs = .ok o ∧ d.Binds s inputs o) ∨ ∃ e, d.value s inputs = .error e ∧ d.Faults s inputs e := by
  by_cases htype : s.IsInput d.typeRef
  · cases hv : Dict.get? inputs d.name.value with
    | some v =>
      rw [value_input htype hv]
      cases hnull : v.isNull && d.typeRef.isNonNull with
      | true =>
        obtain ⟨hv', ht⟩ := Bool.and_eq_true_iff.1 hnull
        cases v with
        | null => exact .inr ⟨_, rfl, .unexpectedNull htype hv ht⟩
        | _ => exact absurd hv' (by simp [Json.isNull])
      | false =>
        have hnullable : v = .null → d.typeRef.isNonNull = false := by
          rintro rfl
          simpa [Json.isNull] using hnull
        rcases Json.isJudged hs v d.typeRef with ⟨w, hw, hreads⟩ | ⟨e, he, hwrong⟩
        · exact .inl ⟨some w, by rw [hw]; rfl, .input htype hv hreads⟩
        · have hviolates := hwrong.resolve_right fun h => h.1 htype
          exact .inr ⟨_, by rw [he]; rfl, .invalid htype hv hnullable hviolates he⟩
    | none =>
      cases hd : d.default with
      | some l =>
        rw [value_default htype hv hd]
        rcases Literal.isJudged hs [] l d.typeRef with ⟨w, hw, hmeans⟩ | ⟨hnone, hmisfits⟩
        · exact .inl ⟨some w, by rw [hw], .default htype hv hd hmeans⟩
        · exact .inr ⟨_, by rw [hnone], .invalidDefault htype hv hd hmisfits⟩
      | none =>
        rw [value_missing htype hv hd]
        cases ht : d.typeRef.isNonNull with
        | true => exact .inr ⟨_, rfl, .missing htype hv hd ht⟩
        | false => exact .inl ⟨none, rfl, .leftOut htype hv hd ht⟩
  · exact .inr ⟨_, value_notInputType htype, .notInputType htype⟩

theorem Binds.value_eq (hs : s.Built) {o : Option Json} (h : d.Binds s inputs o) : d.value s inputs = .ok o := by
  cases h with
  | @input v w htype hv h =>
    have hnull : (v.isNull && d.typeRef.isNonNull) = false := by
      cases v with
      | null =>
        cases ht : d.typeRef with
        | nonNull t => exact absurd (Json.coerce_eq_ok_iff hs |>.2 (ht ▸ h)) (by simp [Json.coerce_null_nonNull])
        | _ => rfl
      | _ => rfl
    rw [value_input htype hv, hnull, h.coerce_eq hs]
    rfl
  | default htype hv hd h => rw [value_default htype hv hd, h.valueAt?_eq hs]
  | leftOut htype hv hd h => rw [value_missing htype hv hd, h]; rfl

theorem value_eq_ok_iff (hs : s.Built) {o : Option Json} : d.value s inputs = .ok o ↔ d.Binds s inputs o := by
  refine ⟨fun h => ?_, fun h => h.value_eq hs⟩
  rcases value_cases hs inputs d with ⟨o', ho', hbinds⟩ | ⟨e, he, -⟩
  · exact Except.ok.inj (ho'.symm.trans h) ▸ hbinds
  · exact absurd (he.symm.trans h) (by simp)

/-- What a variable is bound to depends on its own input only. -/
theorem value_congr {inputs' : Dict Json} (h : Dict.get? inputs' d.name.value = Dict.get? inputs d.name.value) :
    d.value s inputs' = d.value s inputs := by
  unfold value
  dsimp only
  rw [h]

end VariableDefinition

/-! ### All definitions -/

/-- Elements that are picked are those for which there is an outcome. -/
theorem List.forall₂_filter_filterMap {α β : Type} {R : α → β → Prop} {p : α → Bool} {f : α → Option β} {xs : List α}
    (h : ∀ x ∈ xs, (p x = true ∧ ∃ y, f x = some y ∧ R x y) ∨ p x = false ∧ f x = none) :
    List.Forall₂ R (xs.filter p) (xs.filterMap f) := by
  induction xs with
  | nil => exact .nil
  | cons x rest ih =>
    have hrest := ih fun y hy => h y (List.mem_cons_of_mem _ hy)
    rcases h x List.mem_cons_self with ⟨hp, y, hy, hR⟩ | ⟨hp, hnone⟩
    · rw [List.filter_cons_of_pos hp, List.filterMap_cons_some hy]
      exact .cons hR hrest
    · rw [List.filter_cons_of_neg (by simp [hp]), List.filterMap_cons_none hnone]
      exact hrest

/-- With distinct keys, the order of the entries does not matter. -/
theorem Dict.get?_perm {α : Type} {d d' : Dict α} (hperm : d'.Perm d) (hkeys : (Dict.keys d).Nodup) (key : String) :
    Dict.get? d' key = Dict.get? d key := by
  have hkeys' : (Dict.keys d').Nodup := (hperm.map Prod.fst).nodup_iff.2 hkeys
  cases h : Dict.get? d key with
  | some v => exact Dict.get?_of_mem hkeys' (hperm.mem_iff.2 (Dict.mem_of_get? h))
  | none =>
    refine Dict.get?_eq_none.2 fun hmem => Dict.get?_eq_none.1 h ?_
    exact (hperm.map Prod.fst).mem_iff.1 hmem

section

variable {s : Schema} {definitions : List VariableDefinition} {inputs : Dict Json}

/-- The error for a definition that is not satisfied. -/
def VariableDefinition.error? (s : Schema) (inputs : Dict Json) (d : VariableDefinition) : Option Error :=
  match d.value s inputs with
  | .error e => some (d.report e)
  | .ok _ => none

/-- The value that a variable is bound to. -/
def VariableDefinition.bound? (s : Schema) (inputs : Dict Json) (d : VariableDefinition) : Option Json :=
  match d.value s inputs with
  | .error _ => none
  | .ok o => o

/-- The errors and the bindings as they are told from all outcomes. -/
private theorem error?_eq (d : VariableDefinition) : d.error? s inputs =
    match (d, d.value s inputs) with
    | (d, .error e) => some { Error.ofMessage e.message with locations := [d.location] }
    | _ => none := by
  unfold VariableDefinition.error?
  cases d.value s inputs <;> rfl

private theorem bound?_eq (d : VariableDefinition) : (d.bound? s inputs).map (d.name.value, ·) =
    match (d, d.value s inputs) with
    | (d, .ok (some value)) => some (d.name.value, value)
    | _ => none := by
  unfold VariableDefinition.bound?
  cases d.value s inputs with
  | error e => rfl
  | ok o => cases o <;> rfl

theorem variableValues_eq : variableValues s definitions inputs =
    if (definitions.filterMap (VariableDefinition.error? s inputs)).isEmpty then
      .ok (Dict.ofEntries (definitions.filterMap fun d => (d.bound? s inputs).map (d.name.value, ·)))
    else .error (definitions.filterMap (VariableDefinition.error? s inputs)) := by
  unfold variableValues
  dsimp only
  rw [List.filterMap_map, List.filterMap_map, funext error?_eq, funext bound?_eq]
  rfl

/-- No errors are reported exactly if all definitions are satisfied. -/
theorem errors_eq_nil_iff (hs : s.Built) : definitions.filterMap (VariableDefinition.error? s inputs) = [] ↔
    ∀ d ∈ definitions, d.IsSatisfied s inputs := by
  rw [List.filterMap_eq_nil_iff]
  refine forall₂_congr fun d _ => ?_
  unfold VariableDefinition.error?
  rcases d.value_cases hs inputs with ⟨o, ho, hbinds⟩ | ⟨e, he, -⟩
  · rw [ho]
    exact ⟨fun _ => ⟨o, hbinds⟩, fun _ => rfl⟩
  · rw [he]
    refine ⟨fun h => absurd h (by simp), fun ⟨o, hbinds⟩ => ?_⟩
    exact absurd (he.symm.trans (hbinds.value_eq hs)) (by simp)

/-- The outcome depends on the inputs of the declared variables only. -/
theorem variableValues_congr {inputs' : Dict Json}
    (h : ∀ d ∈ definitions, Dict.get? inputs' d.name.value = Dict.get? inputs d.name.value) :
    variableValues s definitions inputs' = variableValues s definitions inputs := by
  have hvalue : ∀ d ∈ definitions, (d, d.value s inputs') = (d, d.value s inputs) := fun d hd =>
    congrArg (Prod.mk d) (VariableDefinition.value_congr (h d hd))
  unfold variableValues
  rw [List.map_congr_left hvalue]

/-- A variable is bound if it has an input or a default. -/
theorem VariableDefinition.Binds.isSome_iff {d : VariableDefinition} {o : Option Json} (h : d.Binds s inputs o) :
    o.isSome = (Dict.contains inputs d.name.value || d.default.isSome) := by
  unfold Dict.contains
  cases h with
  | input _ hv => simp [hv]
  | default _ hv hd => simp [hv, hd]
  | leftOut _ hv hd => simp [hv, hd]

/-- All variables are bound by their definitions. -/
theorem eq_of_variableValues_ok (hs : s.Built) (hnodup : (definitions.map (·.name.value)).Nodup) {vars : Variables}
    (h : variableValues s definitions inputs = .ok vars) :
    vars = definitions.filterMap (fun d => (d.bound? s inputs).map (d.name.value, ·)) ∧
      ∀ d ∈ definitions, d.Binds s inputs (d.bound? s inputs) := by
  have hkeys : (Dict.keys (definitions.filterMap fun d => (d.bound? s inputs).map (d.name.value, ·))).Nodup :=
    hnodup.sublist (Dict.keys_filterMap_sublist definitions (·.name.value) (VariableDefinition.bound? s inputs))
  rw [variableValues_eq, Dict.ofEntries_of_nodup hkeys] at h
  split at h
  · rename_i hempty
    refine ⟨(Except.ok.inj h).symm, fun d hd => ?_⟩
    obtain ⟨o, hbinds⟩ := (errors_eq_nil_iff hs).1 (List.isEmpty_iff.1 hempty) d hd
    have hbound : d.bound? s inputs = o := by
      unfold VariableDefinition.bound?
      rw [hbinds.value_eq hs]
    exact hbound ▸ hbinds
  · exact absurd h (by simp)

end

open scoped Classical in
/-- **Variables are bound all or none.**  If all definitions are satisfied, exactly the variables with an input or a default
have values, in the order of the definitions, each its own; otherwise each definition that is not satisfied is reported once,
at its location and for its own fault.  Inputs that are not declared do not matter, nor does the order of the inputs. -/
theorem variableValues_all_or_none {s : Schema} (hs : s.Built) {definitions : List VariableDefinition}
    (hnodup : (definitions.map (·.name.value)).Nodup) (inputs : Dict Json) :
    ((∃ vars, variableValues s definitions inputs = .ok vars) ↔ ∀ d ∈ definitions, d.IsSatisfied s inputs) ∧
      (∀ vars, variableValues s definitions inputs = .ok vars →
        Dict.keys vars = (definitions.filter fun d => Dict.contains inputs d.name.value || d.default.isSome).map
          (·.name.value) ∧
        ∀ d ∈ definitions, d.Binds s inputs (Dict.get? vars d.name.value)) ∧
      (∀ errors, variableValues s definitions inputs = .error errors →
        List.Forall₂ (fun d e => ∃ fault, d.Faults s inputs fault ∧ e = d.report fault)
          (definitions.filter fun d => ¬ d.IsSatisfied s inputs) errors) ∧
      (∀ inputs' : Dict Json, (∀ d ∈ definitions, Dict.get? inputs' d.name.value = Dict.get? inputs d.name.value) →
        variableValues s definitions inputs' = variableValues s definitions inputs) ∧
      ∀ inputs' : Dict Json, (Dict.keys inputs).Nodup → inputs'.Perm inputs →
        variableValues s definitions inputs' = variableValues s definitions inputs := by
  refine ⟨?_, fun vars hvars => ?_, fun errors herrors => ?_, fun inputs' h => variableValues_congr h,
    fun inputs' hkeys hperm => variableValues_congr fun d _ => Dict.get?_perm hperm hkeys _⟩
  · rw [← errors_eq_nil_iff hs, variableValues_eq]
    cases definitions.filterMap (VariableDefinition.error? s inputs) with
    | nil => simp
    | cons e rest => simp
  · obtain ⟨rfl, hbinds⟩ := eq_of_variableValues_ok hs hnodup hvars
    refine ⟨?_, fun d hd => ?_⟩
    · have hpicked : ∀ d ∈ definitions, ((d.bound? s inputs).map (d.name.value, ·)).map Prod.fst =
          if Dict.contains inputs d.name.value || d.default.isSome then some d.name.value else none := by
        intro d hd
        rw [← (hbinds d hd).isSome_iff]
        cases d.bound? s inputs <;> rfl
      unfold Dict.keys
      rw [List.map_filterMap, List.filterMap_congr hpicked]
      simp [← List.filterMap_eq_filter, List.map_filterMap, Option.guard]
    · have hget := Dict.get?_filterMap hnodup (VariableDefinition.bound? s inputs) d hd
      exact hget ▸ hbinds d hd
  · obtain rfl : definitions.filterMap (VariableDefinition.error? s inputs) = errors := by
      rw [variableValues_eq] at herrors
      split at herrors
      · exact absurd herrors (by simp)
      · exact Except.error.inj herrors
    refine List.forall₂_filter_filterMap fun d _ => ?_
    unfold VariableDefinition.error?
    rcases d.value_cases hs inputs with ⟨o, ho, hbinds⟩ | ⟨e, he, hfaults⟩
    · exact .inr ⟨decide_eq_false fun h => h ⟨o, hbinds⟩, by rw [ho]⟩
    · refine .inl ⟨decide_eq_true fun ⟨o, hbinds⟩ => ?_, d.report e, by rw [he], e, hfaults, rfl⟩
      exact absurd (he.symm.trans (hbinds.value_eq hs)) (by simp)

/-- A page that has to be given, and a size with a default. -/
def pageVariables : List VariableDefinition :=
  [⟨⟨"page", .empty 0⟩, .nonNull (.named ⟨"Page", .empty 0⟩), none, [], .empty 0, ⟨1, 8⟩⟩,
    ⟨⟨"size", .empty 0⟩, .named ⟨"Int", .empty 0⟩, some (.int 5), [], .empty 0, ⟨1, 21⟩⟩]

/-- The page is given and the size takes its default; without a page, and with a size that is no number, both are
reported. -/
theorem pageVariables_bound : pageSchema.Built ∧ (pageVariables.map (·.name.value)).Nodup ∧
    variableValues pageSchema pageVariables [("other", .null), ("page", .object [("ids", .ofInt 7)])] =
      .ok [("page", .object [("ids", .array [.string "7"]), ("size", .ofInt 10)]), ("size", .ofInt 5)] ∧
    (∀ d ∈ pageVariables, d.IsSatisfied pageSchema [("other", .null), ("page", .object [("ids", .ofInt 7)])]) ∧
    ∀ d ∈ pageVariables, ¬ d.IsSatisfied pageSchema [("size", .bool true)] := by
  have hnodup : (pageVariables.map (·.name.value)).Nodup := by decide
  have hbound : variableValues pageSchema pageVariables [("other", .null), ("page", .object [("ids", .ofInt 7)])] =
      .ok [("page", .object [("ids", .array [.string "7"]), ("size", .ofInt 10)]), ("size", .ofInt 5)] := rfl
  refine ⟨pageSchema_built, hnodup, hbound, (variableValues_all_or_none pageSchema_built hnodup _).1.1 ⟨_, hbound⟩, ?_⟩
  have hfaults := (variableValues_all_or_none pageSchema_built hnodup [("size", .bool true)]).2.2.1 _ rfl
  intro d hd
  simpa using List.length_filter_eq_length_iff.1 hfaults.length_eq d hd

end GraphQL
