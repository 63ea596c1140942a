import GraphQL.Proofs.Meaning.Conforms
import GraphQL.Proofs.Meaning.Opening
import GraphQL.Proofs.Meaning.Parts
import GraphQL.Proofs.Requests

/-!
# Initial data does not depend on time

Two executions have the same results at different times if they become equal once everything is there from the
beginning (`ExecutionContext.untimed`): results that come later are at hand at once, streams do not wait, and it does not
matter whether a resolver fails when it is called or later.  What values come to is the same then
(`Settles.untimed`), and so the data of their answers is (`ExecutionContext.data_eq_of_untimed`).
-/

namespace GraphQL

namespace FieldValue

mutual

/-- The result without delays: what comes later is there at once, unless it is an error. -/
def untimed : FieldValue → FieldValue
  | .value v => .value v
  | .list items => .list (untimedItems items)
  | .later _ _ (.ok v) => untimed v
  | .later _ _ (.error e) => .later none 0 (.error e)
  | .stream ⟨steps, hangs, armed, finished, _⟩ => .stream ⟨untimedSteps steps, hangs, armed, finished, none⟩

/-- Results without delays. -/
def untimedItems : List FieldValue → List FieldValue
  | [] => []
  | item :: rest => untimed item :: untimedItems rest

/-- The steps of a stream without its waits, and with results without delays. -/
def untimedSteps : List (StreamStep Resolved) → List (StreamStep Resolved)
  | [] => []
  | .wait _ :: rest => untimedSteps rest
  | .item (.ok v) :: rest => .item (.ok (untimed v)) :: untimedSteps rest
  | .item (.error e) :: rest => .item (.error e) :: untimedSteps rest

end

end FieldValue

/-- The outcome of a resolver without delays; an error that comes later is there at once. -/
def Resolved.untimed : Resolved → Resolved
  | .error e => .error e
  | .ok v =>
    match v.untimed with
    | .later _ _ (.error e) => .error e
    | v => .ok v

/-- The resolver without delays. -/
def Resolver.untimed (r : Resolver) : Resolver where
  resolve input := Resolved.untimed (r.resolve input)

/-- What is done for other fields, without delays. -/
def FallbackResolver.untimed : FallbackResolver → FallbackResolver
  | none => none
  | property => property
  | custom r => custom r.untimed

/-- The execution with all results at hand from the beginning. -/
def ExecutionContext.untimed (c : ExecutionContext) : ExecutionContext :=
  { c with
    resolvers := { c.resolvers with
      resolvers := Dict.mapValues Resolver.untimed c.resolvers.resolvers
      fallback := c.resolvers.fallback.untimed } }

namespace FieldValue

theorem untimedItems_eq (items : List FieldValue) : untimedItems items = items.map untimed := by
  induction items with
  | nil => rfl
  | cons item rest ih => rw [untimedItems, ih, List.map_cons]

/-- Only errors still come later. -/
theorem untimed_later {v : FieldValue} {notice : Option Notice} {ticks : Nat} {outcome : Resolved}
    (h : v.untimed = .later notice ticks outcome) : ∃ e, v.untimed = .later none 0 (.error e) := by
  match v with
  | .value _ => simp [untimed] at h
  | .list _ => simp [untimed] at h
  | .later _ _ (.ok v) =>
    rw [untimed] at h ⊢
    exact untimed_later h
  | .later _ _ (.error e) => exact ⟨e, by rw [untimed]⟩
  | .stream _ => simp [untimed] at h

end FieldValue

theorem Dict.get?_mapValues {α β : Type} (f : α → β) (d : Dict α) (key : String) :
    Dict.get? (d.mapValues f) key = (Dict.get? d key).map f := by
  induction d with
  | nil => rfl
  | cons e rest ih =>
    obtain ⟨k, v⟩ := e
    show Dict.get? ((k, f v) :: Dict.mapValues f rest) key = _
    unfold Dict.get?
    split
    · rfl
    · exact ih

variable {c : ExecutionContext}

/-! ### Items -/

namespace ItemSource

/-- The items without delays. -/
def untimed (source : ItemSource) : ItemSource :=
  ⟨source.outcomes.map fun outcome => outcome.map FieldValue.untimed, source.ends⟩

private theorem mapM_untimed (outcomes : List Resolved) :
    ((outcomes.map fun outcome => outcome.map FieldValue.untimed).mapM id : Except ResolverError (List FieldValue)) =
      (outcomes.mapM id).map (List.map FieldValue.untimed) := by
  induction outcomes with
  | nil => rfl
  | cons outcome rest ih =>
    rw [List.map_cons, List.mapM_cons, List.mapM_cons, ih]
    cases outcome with
    | error e => rfl
    | ok v =>
      cases List.mapM id rest <;> rfl

theorem first?_untimed (source : ItemSource) (count : Option Nat) :
    source.untimed.first? count = (source.first? count).map fun items => items.map (List.map FieldValue.untimed) := by
  unfold first? untimed
  rw [List.length_map]
  split
  · rw [Option.map_some, ← mapM_untimed]
    cases count with
    | none => rfl
    | some n => simp [List.map_take]
  · rfl

end ItemSource

theorem StreamStep.source_untimed (hangs : Bool) (steps : List (StreamStep Resolved)) :
    StreamStep.source hangs (FieldValue.untimedSteps steps) = (StreamStep.source hangs steps).untimed := by
  induction steps with
  | nil => rfl
  | cons step rest ih =>
    match step with
    | .wait _ =>
      rw [FieldValue.untimedSteps, ih]
      rfl
    | .item (.ok v) =>
      rw [FieldValue.untimedSteps, StreamStep.source, StreamStep.source, ih]
      rfl
    | .item (.error e) =>
      rw [FieldValue.untimedSteps, StreamStep.source, StreamStep.source]
      rfl

/-- The items of a result without delays. -/
theorem FieldValue.items?_untimed {v : FieldValue} (h : ∀ notice ticks outcome, v ≠ .later notice ticks outcome) :
    v.untimed.items? = v.items?.map ItemSource.untimed := by
  match v with
  | .value (.array items) =>
    simp [untimed, items?, ItemSource.untimed, Function.comp_def, Except.map]
  | .value .null => simp [untimed, items?]
  | .value (.bool _) => simp [untimed, items?]
  | .value (.number _) => simp [untimed, items?]
  | .value (.string _) => simp [untimed, items?]
  | .value (.object _) => simp [untimed, items?]
  | .list items =>
    simp [untimed, items?, ItemSource.untimed, untimedItems_eq, Function.comp_def, Except.map]
  | .later notice ticks outcome => exact absurd rfl (h notice ticks outcome)
  | .stream ⟨steps, hangs, armed, finished, timer⟩ =>
    rw [untimed, items?, items?, Option.map_some]
    unfold ItemStreamOf.source
    dsimp only
    rw [StreamStep.source_untimed]
    split <;> rfl

/-! ### Demands -/

/-- What a value comes down to without delays. -/
def Demand.untimed : Demand → Demand
  | .outcome result => .outcome result
  | .value v => .value v.untimed
  | .required type => .required type
  | .items type source => .items type source.untimed
  | .object typeName v => .object typeName v

namespace ExecutionContext

section

variable {v : FieldValue} (hlater : ∀ notice ticks outcome, v ≠ .later notice ticks outcome)
include hlater

theorem single_untimed (typeName : String) : v.untimed.single typeName = v.single typeName := by
  cases v with
  | later notice ticks outcome => exact absurd rfl (hlater notice ticks outcome)
  | _ => simp [FieldValue.untimed, FieldValue.single]

theorem isNull_untimed : v.untimed.isNull = v.isNull := by
  cases v with
  | later notice ticks outcome => exact absurd rfl (hlater notice ticks outcome)
  | _ => simp [FieldValue.untimed, FieldValue.isNull]

theorem ne_later_untimed (notice : Option Notice) (ticks : Nat) (outcome : Resolved) :
    v.untimed ≠ .later notice ticks outcome := by
  match v with
  | .value _ => simp [FieldValue.untimed]
  | .list _ => simp [FieldValue.untimed]
  | .later notice ticks outcome => exact absurd rfl (hlater notice ticks outcome)
  | .stream _ => simp [FieldValue.untimed]

theorem namedDemand_untimed (typeName : String) (place : Place) :
    c.untimed.namedDemand typeName place v.untimed = (c.namedDemand typeName place v).untimed := by
  have hsame : c.untimed.namedDemand typeName place v.untimed = c.namedDemand typeName place v := by
    unfold namedDemand
    rw [single_untimed hlater]
    rfl
  rw [hsame]
  rcases c.namedDemand_cases typeName place v with ⟨-, h⟩ | ⟨e, h⟩ | ⟨objectType, w, -, h⟩
  · rw [h]
    rfl
  · rw [h]
    rfl
  · rw [h]
    rfl

theorem demand_untimed (type : TypeRef) (place : Place) :
    c.untimed.demand type place v.untimed = (c.demand type place v).untimed := by
  cases type with
  | nonNull inner =>
    rw [demand_nonNull (ne_later_untimed hlater), demand_nonNull hlater]
    rfl
  | list itemType =>
    rw [demand_list (ne_later_untimed hlater), demand_list hlater, isNull_untimed hlater, FieldValue.items?_untimed hlater]
    split
    · rfl
    · cases v.items? <;> rfl
  | named typeName =>
    rw [demand_named (ne_later_untimed hlater), demand_named hlater, isNull_untimed hlater, namedDemand_untimed hlater]
    split <;> rfl

end

end ExecutionContext

/-! ### Outcomes -/

/-- The same child without delays: an error that came later may have come at once. -/
structure Child.Untimed (child child' : Child) : Prop where
  type : child.type = child'.type
  place : child.place = child'.place
  result : child'.result = child.result.map FieldValue.untimed ∨ ∃ v e, child.result = .ok v ∧
    v.untimed = .later none 0 (.error e) ∧ child'.result = .error e.toError

/-- The same is asked for without delays. -/
inductive Asked.Untimed : Asked → Asked → Prop
  | value {type place v} : Untimed (.value type place v) (.value type place v.untimed)
  | child {child child'} (h : Child.Untimed child child') : Untimed (.child child) (.child child')
  | gather {shape children children'} (h : List.Forall₂ Child.Untimed children children') :
      Untimed (.gather shape children) (.gather shape children')

theorem itemChildren_untimed (type : TypeRef) (place : Place) (position : Nat) (items : List FieldValue) :
    List.Forall₂ Child.Untimed (itemChildren type place position items)
      (itemChildren type place position (items.map FieldValue.untimed)) := by
  induction items generalizing position with
  | nil => exact .nil
  | cons item rest ih => exact .cons ⟨rfl, rfl, .inl rfl⟩ (ih (position + 1))

/-- The outcome of a resolver without delays: an error that comes later comes at once. -/
theorem Resolved.untimed_ok (v : FieldValue) :
    Resolved.untimed (.ok v) = .ok v.untimed ∨
      ∃ e, v.untimed = .later none 0 (.error e) ∧ Resolved.untimed (.ok v) = .error e := by
  unfold Resolved.untimed
  dsimp only
  cases h : v.untimed with
  | later notice ticks outcome =>
    obtain ⟨e, he⟩ := FieldValue.untimed_later h
    rw [h] at he
    rw [he]
    exact .inr ⟨e, rfl, rfl⟩
  | _ => exact .inl rfl

/-- A resolver gives the same, but for delays. -/
theorem Resolver.result_untimed (r : Resolver) (input : ResolverInput) :
    r.untimed.result input = (r.result input).map FieldValue.untimed ∨
      ∃ v e, r.result input = .ok v ∧ v.untimed = .later none 0 (.error e) ∧ r.untimed.result input = .error e := by
  have huntimed : r.untimed.result input = Resolved.untimed (r.resolve input) := rfl
  rw [huntimed]
  unfold result
  cases hresolve : r.resolve input with
  | error e =>
    split
    · exact .inr ⟨_, e, rfl, by rw [FieldValue.untimed], rfl⟩
    · exact .inl rfl
  | ok v =>
    rcases Resolved.untimed_ok v with h | ⟨e, hv, h⟩
    · rw [h]
      split
      · exact .inl (by rw [Except.map, FieldValue.untimed])
      · exact .inl rfl
    · rw [h]
      split
      · exact .inr ⟨_, e, rfl, by rw [FieldValue.untimed, hv], rfl⟩
      · exact .inr ⟨_, e, rfl, hv, rfl⟩

theorem propertyOf_untimed (parent : Json) (fieldName : String) :
    (propertyOf parent fieldName).map FieldValue.untimed = propertyOf parent fieldName := by
  unfold propertyOf
  split
  · rw [Except.map, FieldValue.untimed]
  · rw [Except.map, FieldValue.null, FieldValue.untimed]
  · rfl

/-- A field gives the same, but for delays. -/
theorem ExecutionContext.resolution_untimed (c : ExecutionContext) (parent : Json) (field : Field)
    (definition : FieldDef) (info : FieldInfo) :
    c.untimed.resolution parent field definition info =
        (c.resolution parent field definition info).map FieldValue.untimed ∨
      ∃ v e, c.resolution parent field definition info = .ok v ∧ v.untimed = .later none 0 (.error e) ∧
        c.untimed.resolution parent field definition info = .error (ResolverError.toError e) := by
  have hfind : c.untimed.resolvers.find? info.parentType info.fieldName =
      (c.resolvers.find? info.parentType info.fieldName).map fun
        | .property => .property
        | .resolver r => .resolver r.untimed := by
    unfold ResolverMap.find? untimed
    dsimp only
    rw [Dict.get?_mapValues]
    cases Dict.get? c.resolvers.resolvers (info.parentType ++ "." ++ info.fieldName) with
    | some r => rfl
    | none => cases c.resolvers.fallback <;> rfl
  have hsame : argumentValues c.untimed.schema definition.arguments field.arguments c.untimed.vars =
    argumentValues c.schema definition.arguments field.arguments c.vars := rfl
  unfold resolution
  rw [hsame, hfind]
  cases argumentValues c.schema definition.arguments field.arguments c.vars with
  | error e => exact .inl rfl
  | ok arguments =>
    dsimp only
    by_cases hname : info.fieldName = "__typename"
    · rw [if_pos hname, if_pos hname]
      exact .inl (by rw [Except.map, FieldValue.untimed])
    · rw [if_neg hname, if_neg hname]
      cases c.resolvers.find? info.parentType info.fieldName with
      | none => exact .inl rfl
      | some found =>
        cases found with
        | property =>
          refine .inl ?_
          have hproperty := propertyOf_untimed parent info.fieldName
          show (propertyOf parent info.fieldName).mapError _ = ((propertyOf parent info.fieldName).mapError _).map _
          cases h : propertyOf parent info.fieldName with
          | error e => rfl
          | ok v =>
            rw [h] at hproperty
            exact congrArg Except.ok (Except.ok.inj hproperty).symm
        | resolver r =>
          show (r.untimed.result ⟨parent, arguments, c.context, info⟩).mapError _ = _ ∨ _
          rcases r.result_untimed ⟨parent, arguments, c.context, info⟩ with h | ⟨v, e, hv, hlate, h⟩
          · refine .inl ?_
            rw [h]
            dsimp only
            cases r.result ⟨parent, arguments, c.context, info⟩ <;> rfl
          · refine .inr ⟨v, e, ?_, hlate, ?_⟩
            · dsimp only
              rw [hv]
              rfl
            · show (r.untimed.result ⟨parent, arguments, c.context, info⟩).mapError _ = _
              rw [h]
              rfl

theorem ExecutionContext.children_untimed (c : ExecutionContext) (o : Selected) :
    List.Forall₂ (fun child child' => child.1 = child'.1 ∧ child.2.Untimed child'.2) (c.children o)
      (c.untimed.children o) := by
  have hfields : List.Forall₂ Eq o.fields o.fields := List.forall₂_refl _
  refine List.rel_filterMap (fun field field' hfield => ?_) hfields
  subst hfield
  unfold child?
  show Option.Rel _ _ (Option.map (field.1, ·) (Option.map _ (c.schema.field? _ _)))
  cases c.schema.field? o.typeName field.2.first.node.name.value with
  | none => exact .none
  | some definition => exact .some ⟨rfl, rfl, rfl, c.resolution_untimed _ _ _ _⟩

/-- The same fields are asked for without delays. -/
theorem ExecutionContext.asked_untimed (c : ExecutionContext) (o : Selected) :
    (c.asked o).Untimed (c.untimed.asked o) := by
  have hchildren := c.children_untimed o
  have hkeys : (c.children o).map Prod.fst = (c.untimed.children o).map Prod.fst := by
    rw [← List.forall₂_eq_eq_eq]
    exact List.rel_map (fun _ _ h => h.1) hchildren
  unfold asked
  rw [hkeys]
  exact .gather (List.rel_map (fun _ _ h => h.2) hchildren)

/-- A value that comes to an error later than it is asked for comes to that error. -/
theorem Settles.late_error {type : TypeRef} {place : Place} {v : FieldValue} {out : Except Error Json} {e : ResolverError}
    (h : Settles c (.value type place v) out) (hlate : v.untimed = .later none 0 (.error e)) : out = .error e.toError := by
  match v with
  | .value _ => simp [FieldValue.untimed] at hlate
  | .list _ => simp [FieldValue.untimed] at hlate
  | .later _ _ (.ok w) =>
    rw [FieldValue.untimed] at hlate
    exact late_error h.value hlate
  | .later _ _ (.error e') =>
    simp only [FieldValue.untimed, FieldValue.later.injEq, Except.error.injEq, true_and] at hlate
    subst hlate
    exact h.value
  | .stream _ => simp [FieldValue.untimed] at hlate

/-- Only what comes later comes down to another value. -/
theorem ExecutionContext.later_of_demand {type : TypeRef} {place : Place} {v later : FieldValue}
    (h : c.demand type place v = .value later) : ∃ notice ticks, v = .later notice ticks (.ok later) := by
  by_cases hlater : ∃ notice ticks outcome, v = .later notice ticks outcome
  · obtain ⟨notice, ticks, outcome, rfl⟩ := hlater
    cases outcome with
    | error e => cases h
    | ok w =>
      cases h
      exact ⟨notice, ticks, rfl⟩
  · push Not at hlater
    exfalso
    cases type with
    | nonNull inner =>
      rw [demand_nonNull hlater] at h
      cases h
    | list itemType =>
      rw [demand_list hlater] at h
      split at h
      · cases h
      · split at h <;> cases h
    | named typeName =>
      rw [demand_named hlater] at h
      split at h
      · cases h
      · rcases c.namedDemand_cases typeName place v with ⟨-, hcase⟩ | ⟨e, hcase⟩ | ⟨objectType, w, -, hcase⟩
        · rw [hcase] at h
          cases h
        · rw [hcase] at h
          cases h
        · rw [hcase] at h
          cases h

/-- What a value comes down to without delays, if it is not a value that comes later. -/
theorem ExecutionContext.demand_untimed_of_ne {type : TypeRef} {place : Place} {v : FieldValue} {demand : Demand}
    (h : c.demand type place v = demand) (hne : ∀ later, demand ≠ .value later) :
    c.untimed.demand type place v.untimed = demand.untimed := by
  subst h
  by_cases hlater : ∃ notice ticks outcome, v = .later notice ticks outcome
  · obtain ⟨notice, ticks, outcome, rfl⟩ := hlater
    cases outcome with
    | error e =>
      rw [FieldValue.untimed]
      rfl
    | ok w => exact absurd rfl (hne w)
  · push Not at hlater
    exact demand_untimed hlater type place

/-- What is asked for may come to the same outcome without delays. -/
theorem Settles.untimed {asked asked' : Asked} {out : Except Error Json} (h : Settles c asked out)
    (huntimed : asked.Untimed asked') : Settles c.untimed asked' out := by
  induction h generalizing asked' with
  | outcome h =>
    cases huntimed
    exact .outcome (ExecutionContext.demand_untimed_of_ne h nofun)
  | awaited h _ ih =>
    cases huntimed
    obtain ⟨notice, ticks, rfl⟩ := ExecutionContext.later_of_demand h
    rw [FieldValue.untimed]
    exact ih .value
  | required h _ ih =>
    cases huntimed
    exact .required (ExecutionContext.demand_untimed_of_ne h nofun) (ih .value)
  | unstreamed h husage =>
    cases huntimed
    exact .unstreamed (ExecutionContext.demand_untimed_of_ne h nofun) husage
  | unlisted h husage hfirst =>
    cases huntimed
    refine .unlisted (ExecutionContext.demand_untimed_of_ne h nofun) husage ?_
    rw [ItemSource.first?_untimed, hfirst]
    rfl
  | list h husage hfirst _ ih =>
    cases huntimed
    refine .list (ExecutionContext.demand_untimed_of_ne h nofun) husage ?_ (ih (.gather (itemChildren_untimed _ _ 0 _)))
    rw [ItemSource.first?_untimed, hfirst]
    rfl
  | uncollected h hcollected =>
    cases huntimed
    exact .uncollected (ExecutionContext.demand_untimed_of_ne h nofun) hcollected
  | object h hcollected _ ih =>
    cases huntimed
    exact .object (ExecutionContext.demand_untimed_of_ne h nofun) hcollected (ih (c.asked_untimed _))
  | @child type place v out h ih =>
    cases huntimed with
    | @child _ child' hchild =>
      obtain ⟨type', place', result'⟩ := child'
      obtain ⟨rfl, rfl, rfl | ⟨w, e, hw, hlate, rfl⟩⟩ := hchild
      · exact .child (ih .value)
      · -- the value came to an error later, which now comes at once
        cases hw
        rw [h.late_error hlate]
        exact .unresolved
  | unresolved =>
    cases huntimed with
    | @child _ child' hchild =>
      obtain ⟨type', place', result'⟩ := child'
      obtain ⟨rfl, rfl, rfl | ⟨w, e, hw, -⟩⟩ := hchild
      · exact .unresolved
      · cases hw
  | @gathered shape children values hlength _ ih =>
    cases huntimed with
    | @gather _ _ children' hchildren =>
      have hlengths := hchildren.length_eq
      refine .gathered (by omega) fun i child v hchild hv => ?_
      obtain ⟨hi, rfl⟩ := List.getElem?_eq_some_iff.mp hchild
      exact ih i _ v (List.getElem?_eq_getElem (by omega)) hv (.child (hchildren.get (by omega) hi))
  | failed hchild _ ih =>
    cases huntimed with
    | @gather _ _ children' hchildren =>
      obtain ⟨i, hi, rfl⟩ := List.getElem_of_mem hchild
      have hi' : i < children'.length := hchildren.length_eq ▸ hi
      exact .failed (List.getElem_mem hi') (ih (.child (hchildren.get hi hi')))

/-! ### Data -/

/-- The data of an answer is the outcome of the fields of the operation without delays, null for an error. -/
theorem ExecutionContext.data_of_respondWith {fuel : Nat} {a : Answer} {s : ExecStage}
    (h : (c.respondWith fuel).run c.stage = some (some a, s)) :
    match c.collected with
    | .error _ => a.data = some .null
    | .ok collected => ∃ out, Settles c (c.asked (c.opening collected)) out ∧
      Settles c.untimed (c.untimed.asked (c.untimed.opening collected)) out ∧
      a.data = some (out.toOption.getD .null) := by
  have hsettles := settles_of_respondWith h
  cases hcollected : c.collected with
  | error e =>
    rw [hcollected] at hsettles
    obtain ⟨_, hanswer⟩ := hsettles
    exact Execution.data_of_answer hanswer
  | ok collected =>
    rw [hcollected] at hsettles
    obtain ⟨out, _, hsettles, hanswer⟩ := hsettles
    exact ⟨out, hsettles, hsettles.untimed (c.asked_untimed _), Execution.data_of_answer hanswer⟩

/-- Executions that differ in time only are answered with the same data.  It is an object that has the fields of the
operation that the root type has, in the order in which they were collected, or it is null because of an error that is
raised when the fields are collected or reaches them. -/
theorem ExecutionContext.data_eq_of_untimed {c c' : ExecutionContext} {fuel fuel' : Nat} {a a' : Answer}
    {s s' : ExecStage} (huntimed : c.untimed = c'.untimed)
    (h : (c.respondWith fuel).run c.stage = some (some a, s))
    (h' : (c'.respondWith fuel').run c'.stage = some (some a', s')) :
    ∃ data, a.data = some data ∧ a'.data = some data ∧
      ((∃ collected, c.collected = .ok collected ∧ ConformsTo c c.rootType collected.fields data) ∨
        data = .null ∧ ((∃ e, c.collected = .error e) ∨
          ∃ collected, c.collected = .ok collected ∧ (c.asked (c.opening collected)).Reached c)) := by
  have hdata := data_of_respondWith h
  have hdata' := data_of_respondWith h'
  have hcollected : c'.collected = c.collected := by
    show c'.untimed.collected = c.untimed.collected
    rw [huntimed]
  rw [hcollected, ← huntimed] at hdata'
  cases hc : c.collected with
  | error e =>
    rw [hc] at hdata hdata'
    exact ⟨.null, hdata, hdata', .inr ⟨rfl, .inl ⟨e, rfl⟩⟩⟩
  | ok collected =>
    rw [hc] at hdata hdata'
    obtain ⟨out, hsettles, huntimes, hdata⟩ := hdata
    obtain ⟨out', -, huntimes', hdata'⟩ := hdata'
    have hfields : GroupedFieldSet.Alike collected.fields collected.fields := by
      have halike := Collector.collectFields_alike (c := c.collection) {} Nat.one_pos c.rootType c.operation.selectionSet.selections
      rw [show (({} : Collector).collectFields c.collection _ _).1 = .ok collected from hc] at halike
      exact halike
    have hout : out.toOption = out'.toOption :=
      huntimes.agrees (asked_alike rfl rfl rfl hfields) huntimes'
    refine ⟨_, hdata, hout ▸ hdata', ?_⟩
    cases out with
    | error e => exact .inr ⟨rfl, .inr ⟨collected, rfl, hsettles.reached e rfl⟩⟩
    | ok v => exact .inl ⟨collected, rfl, Asked.IsTyped.to (hsettles.conforms rfl)⟩

/-- Two fields that must not be null fail at different times, below a field that may be null. -/
def racingErrors (ticks ticks' : Nat) : ExecutionContext :=
  .ofSelections
    [.ofFields "Query" [("a", .named "String"), ("o", .named "O")],
      .ofFields "O" [("x", .nonNull (.named "String")), ("y", .nonNull (.named "String"))]]
    [("O.x", { resolve := fun _ => .ok (.later none ticks (.error (.custom "no x"))) }),
      ("O.y", { resolve := fun _ => .ok (.later none ticks' (.error (.custom "no y"))) })]
    (.object [("a", .string "1"), ("o", .object [])])
    [.named "o" [.named "x", .named "y"], .named "a"]

theorem untimed_racingErrors (ticks ticks' : Nat) :
    (racingErrors ticks ticks').untimed = (racingErrors 0 0).untimed := by
  simp [racingErrors, ExecutionContext.untimed, ExecutionContext.ofSelections, Dict.mapValues, Resolver.untimed,
    Resolved.untimed, FieldValue.untimed]

/-- The error of the field that fails first is reported, and the object around it is null. -/
private theorem response_racingErrors : ∀ t ∈ [(1, 2, "no x"), (2, 1, "no y")],
    (((racingErrors t.1 t.2.1).respondWith 10).run (racingErrors t.1 t.2.1).stage).map (fun p =>
      match p.1 with
      | some (.single r) => (r.data, r.errors.map Error.message)
      | _ => (none, [])) = some (some (.object [("o", .null), ("a", .string "1")]), [t.2.2]) := by
  decide +kernel

private theorem single_racingErrors {t : Nat × Nat × String} (ht : t ∈ [(1, 2, "no x"), (2, 1, "no y")]) :
    ∃ r s, ((racingErrors t.1 t.2.1).respondWith 10).run (racingErrors t.1 t.2.1).stage = some (some (.single r), s) ∧
      r.data = some (.object [("o", .null), ("a", .string "1")]) ∧ r.errors.map Error.message = [t.2.2] := by
  obtain ⟨⟨a?, s⟩, hrun, hresponse⟩ := Option.map_eq_some_iff.1 (response_racingErrors t ht)
  match a? with
  | some (.single r) =>
    obtain ⟨hdata, hmessages⟩ := Prod.mk.inj hresponse
    exact ⟨r, s, hrun, hdata, hmessages⟩
  | some (.incremental _) => exact absurd hresponse (by simp)
  | none => exact absurd hresponse (by simp)

/-- Whichever of the fields fails first, the data is the same; the error that is reported is not. -/
theorem data_of_racingErrors : ∃ r s r' s',
    ((racingErrors 1 2).respondWith 10).run (racingErrors 1 2).stage = some (some (.single r), s) ∧
      ((racingErrors 2 1).respondWith 10).run (racingErrors 2 1).stage = some (some (.single r'), s') ∧
      r.data = some (.object [("o", .null), ("a", .string "1")]) ∧ r'.data = r.data ∧
      r.errors.map Error.message = ["no x"] ∧ r'.errors.map Error.message = ["no y"] := by
  obtain ⟨r, s, hrun, hdata, hmessages⟩ := single_racingErrors (t := (1, 2, "no x")) (by simp)
  obtain ⟨r', s', hrun', -, hmessages'⟩ := single_racingErrors (t := (2, 1, "no y")) (by simp)
  obtain ⟨data, hsame, hsame', -⟩ := ExecutionContext.data_eq_of_untimed
    ((untimed_racingErrors 1 2).trans (untimed_racingErrors 2 1).symm) hrun hrun'
  exact ⟨r, s, r', s', hrun, hrun', hdata, hsame'.trans hsame.symm, hmessages, hmessages'⟩

end GraphQL
