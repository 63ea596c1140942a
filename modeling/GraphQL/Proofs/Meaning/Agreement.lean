import GraphQL.Proofs.Collection.Renumbering
import GraphQL.Proofs.Meaning.Outcomes

/-!
# Values agree

Whatever numbers execution hands out, and whichever of several children fails first, what is asked for comes to the same
value or to no value at all (`Settles.agrees`): the only choice that it leaves open is which error goes on.
-/

namespace GraphQL

variable {c : ExecutionContext}

/-! ### What is alike -/

/-- Places of groups that are alike. -/
structure Place.Alike (p p' : Place) : Prop where
  group : p.group.Alike p'.group
  info : p.info = p'.info
  path : p.path = p'.path

/-- Children with the same result at places that are alike. -/
structure Child.Alike (child child' : Child) : Prop where
  type : child.type = child'.type
  place : child.place.Alike child'.place
  result : child.result = child'.result

/-- The same is asked for at places that are alike. -/
inductive Asked.Alike : Asked → Asked → Prop
  | value {type place place' v} (h : Place.Alike place place') : Alike (.value type place v) (.value type place' v)
  | child {child child'} (h : Child.Alike child child') : Alike (.child child) (.child child')
  | gather {shape children children'} (h : List.Forall₂ Child.Alike children children') :
      Alike (.gather shape children) (.gather shape children')

theorem FieldGroup.Alike.nodes {g g' : FieldGroup} (h : g.Alike g') : g.nodes = g'.nodes := by
  obtain ⟨-, -, R, -, -, hfields⟩ := h
  unfold FieldGroup.nodes
  rw [← List.forall₂_eq_eq_eq]
  exact List.rel_map (fun _ _ hd => hd.1) hfields

theorem FieldGroup.Alike.node {g g' : FieldGroup} (h : g.Alike g') : g.first.node = g'.first.node :=
  (List.cons.inj h.nodes).1

theorem FieldGroup.Alike.locations {g g' : FieldGroup} (h : g.Alike g') : g.locations = g'.locations :=
  congrArg (List.map FieldOf.location) h.nodes

namespace Place.Alike

variable {p p' : Place}

theorem index (h : p.Alike p') (position : Nat) : (p.index position).Alike (p'.index position) :=
  ⟨h.group, h.info, congrArg (Path.index · position) h.path⟩

theorem toErrorAt (h : p.Alike p') (e : CompletionError) : e.toErrorAt p.group = e.toErrorAt p'.group := by
  unfold CompletionError.toErrorAt
  rw [h.group.locations]

/-- A value comes down to the same wherever it stands. -/
theorem demand (h : p.Alike p') (type : TypeRef) (v : FieldValue) : c.demand type p v = c.demand type p' v := by
  have hobject : ∀ typeName w, c.objectDemand typeName p w = c.objectDemand typeName p' w := by
    intro typeName w
    unfold ExecutionContext.objectDemand
    rw [h.toErrorAt]
  have hruntime : ∀ typeName w, Execution.runtimeType c typeName w (p.site .initial []) =
      Execution.runtimeType c typeName w (p'.site .initial []) := by
    intro typeName w
    unfold Execution.runtimeType
    simp only [Place.site, h.toErrorAt, h.info]
  have hnamed : ∀ typeName w, c.namedDemand typeName p w = c.namedDemand typeName p' w := by
    intro typeName w
    unfold ExecutionContext.namedDemand
    simp only [hruntime, hobject]
  unfold ExecutionContext.demand
  simp only [hnamed, h.info]

/-- A list is streamed in the same way wherever it stands. -/
theorem streams (h : p.Alike p') {usage usage' : Except Error (Option StreamUsage)}
    (hu : c.Streams p.group p.path usage) (hu' : c.Streams p'.group p'.path usage') :
    usage.map (·.map StreamUsage.initialCount) = usage'.map (·.map StreamUsage.initialCount) := by
  unfold ExecutionContext.Streams at hu hu'
  rw [← h.path] at hu'
  split at hu
  · rw [if_pos ‹_›] at hu'
    rw [hu, hu']
  · rw [if_neg ‹_›] at hu'
    obtain ⟨n, rfl⟩ := hu
    obtain ⟨n', rfl⟩ := hu'
    unfold Execution.newStreamUsage
    rw [h.group.node]
    split
    · rfl
    · cases streamOf? c.schema p'.group.first.node.directives c.vars with
      | error e => rfl
      | ok directive =>
        cases directive with
        | none => rfl
        | some d =>
          dsimp only
          split
          · rfl
          · split <;> rfl

/-- What is collected below groups that are alike is alike. -/
theorem collects (h : p.Alike p') {typeName : String} {result result' : Except CollectionError CollectedFields}
    (hc : c.Collects typeName p.group result) (hc' : c.Collects typeName p'.group result') :
    CollectedFields.Alike result result' := by
  obtain ⟨collector, hprecedes, rfl⟩ := hc
  obtain ⟨collector', hprecedes', rfl⟩ := hc'
  exact Collector.collectBelow_alike h.group hprecedes hprecedes' typeName

end Place.Alike

/-! ### Outcomes -/

/-- What a list comes to with so many items, or all of them. -/
def Settles.Listed (c : ExecutionContext) (type : TypeRef) (place : Place) (source : ItemSource)
    (count : Except Error (Option Nat)) (out : Except Error Json) : Prop :=
  match count with
  | .error e => out = .error e
  | .ok count =>
    match source.first? count with
    | none => False
    | some (.error e) => out = .error (e.toError.locate place.group place.path)
    | some (.ok items) => Settles c (.gather .list (itemChildren type place 0 items)) out

/-- What a value comes to by what it comes down to. -/
theorem Settles.value {type : TypeRef} {place : Place} {v : FieldValue} {out : Except Error Json}
    (h : Settles c (.value type place v) out) :
    match c.demand type place v with
    | .outcome result => out = result
    | .value later => Settles c (.value type place later) out
    | .required inner => ∃ result, Settles c (.value inner place v) result ∧ out = place.info.required result
    | .items itemType source => ∃ usage, c.Streams place.group place.path usage ∧
      Listed c itemType place source (usage.map (·.map StreamUsage.initialCount)) out
    | .object typeName parent => ∃ result, c.Collects typeName place.group result ∧
      match result with
      | .error e => out = .error e.toError
      | .ok collected => Settles c (c.asked ⟨typeName, parent, place.path, collected.fields⟩) out := by
  cases h with
  | outcome h => rw [h]
  | awaited h hlater =>
    rw [h]
    exact hlater
  | required h hinner =>
    rw [h]
    exact ⟨_, hinner, rfl⟩
  | unstreamed h husage =>
    rw [h]
    exact ⟨_, husage, rfl⟩
  | unlisted h husage hfirst =>
    rw [h]
    refine ⟨_, husage, ?_⟩
    unfold Listed
    dsimp only [Except.map]
    rw [hfirst]
  | list h husage hfirst hitems =>
    rw [h]
    refine ⟨_, husage, ?_⟩
    unfold Listed
    dsimp only [Except.map]
    rw [hfirst]
    exact hitems
  | uncollected h hcollected =>
    rw [h]
    exact ⟨_, hcollected, rfl⟩
  | object h hcollected hfields =>
    rw [h]
    exact ⟨_, hcollected, hfields⟩

/-- A value that must not be null is there if it is and is not null. -/
theorem FieldInfo.toOption_required (info : FieldInfo) (out : Except Error Json) :
    (info.required out).toOption = out.toOption.filter fun v => !v.isNull := by
  cases out with
  | error e => rfl
  | ok v =>
    unfold required
    cases hnull : v.isNull <;> simp [hnull, Except.toOption, Option.filter]

/-- A child without a value is null if its type allows it. -/
theorem Child.toOption_absorbed (type : TypeRef) (place : Place) (out : Except Error Json) :
    (absorbed type place out).toOption = out.toOption.or (if type.isNonNull then none else some .null) := by
  cases out with
  | ok v => rfl
  | error e =>
    unfold absorbed
    dsimp only
    split <;> rfl

/-- Children of fields that are alike. -/
theorem ExecutionContext.children_alike {o o' : Selected} (htype : o.typeName = o'.typeName) (hparent : o.parent = o'.parent)
    (hpath : o.path = o'.path) (hfields : GroupedFieldSet.Alike o.fields o'.fields) :
    List.Forall₂ (fun child child' => child.1 = child'.1 ∧ child.2.Alike child'.2) (c.children o) (c.children o') := by
  obtain ⟨typeName, parent, path, fields⟩ := o
  obtain ⟨_, _, _, fields'⟩ := o'
  dsimp only at htype hparent hpath hfields
  subst htype hparent hpath
  refine List.rel_filterMap (fun field field' ⟨hkey, hgroup⟩ => ?_) hfields
  unfold child?
  dsimp only
  rw [← hkey, ← hgroup.node]
  cases c.schema.field? typeName field.2.first.node.name.value with
  | none => exact .none
  | some definition => exact .some ⟨rfl, rfl, ⟨hgroup, rfl, rfl⟩, rfl⟩

/-- Fields that are alike are asked for alike. -/
theorem ExecutionContext.asked_alike {o o' : Selected} (htype : o.typeName = o'.typeName) (hparent : o.parent = o'.parent)
    (hpath : o.path = o'.path) (hfields : GroupedFieldSet.Alike o.fields o'.fields) :
    (c.asked o).Alike (c.asked o') := by
  have hchildren := c.children_alike htype hparent hpath hfields
  have hkeys : (c.children o).map Prod.fst = (c.children o').map Prod.fst := by
    rw [← List.forall₂_eq_eq_eq]
    exact List.rel_map (fun _ _ h => h.1) hchildren
  unfold asked
  rw [hkeys]
  exact .gather (List.rel_map (fun _ _ h => h.2) hchildren)

theorem itemChildren_alike {place place' : Place} (h : place.Alike place') (type : TypeRef) (position : Nat)
    (items : List FieldValue) :
    List.Forall₂ Child.Alike (itemChildren type place position items) (itemChildren type place' position items) := by
  induction items generalizing position with
  | nil => exact .nil
  | cons item rest ih => exact .cons ⟨rfl, h.index position, rfl⟩ (ih (position + 1))

/-- What is asked for alike comes to the same value, or to no value at all. -/
theorem Settles.agrees {asked asked' : Asked} {out out' : Except Error Json} (h : Settles c asked out)
    (halike : asked.Alike asked') (h' : Settles c asked' out') : out.toOption = out'.toOption := by
  induction h generalizing asked' out' with
  | outcome h =>
    cases halike with
    | value hplace =>
      have hvalue := h'.value
      rw [← hplace.demand, h] at hvalue
      rw [hvalue]
  | awaited h _ ih =>
    cases halike with
    | value hplace =>
      have hvalue := h'.value
      rw [← hplace.demand, h] at hvalue
      exact ih (.value hplace) hvalue
  | required h _ ih =>
    cases halike with
    | value hplace =>
      have hvalue := h'.value
      rw [← hplace.demand, h] at hvalue
      obtain ⟨result, hresult, rfl⟩ := hvalue
      rw [FieldInfo.toOption_required, FieldInfo.toOption_required, ih (.value hplace) hresult]
  | unstreamed h husage =>
    cases halike with
    | value hplace =>
      have hvalue := h'.value
      rw [← hplace.demand, h] at hvalue
      obtain ⟨usage', husage', hlisted⟩ := hvalue
      rw [← hplace.streams husage husage'] at hlisted
      obtain rfl : out' = .error _ := hlisted
      rfl
  | unlisted h husage hfirst =>
    cases halike with
    | value hplace =>
      have hvalue := h'.value
      rw [← hplace.demand, h] at hvalue
      obtain ⟨usage', husage', hlisted⟩ := hvalue
      rw [← hplace.streams husage husage'] at hlisted
      unfold Listed at hlisted
      dsimp only [Except.map] at hlisted
      rw [hfirst] at hlisted
      rw [hlisted]
      rfl
  | list h husage hfirst _ ih =>
    cases halike with
    | value hplace =>
      have hvalue := h'.value
      rw [← hplace.demand, h] at hvalue
      obtain ⟨usage', husage', hlisted⟩ := hvalue
      rw [← hplace.streams husage husage'] at hlisted
      unfold Listed at hlisted
      dsimp only [Except.map] at hlisted
      rw [hfirst] at hlisted
      exact ih (.gather (itemChildren_alike hplace _ 0 _)) hlisted
  | uncollected h hcollected =>
    cases halike with
    | value hplace =>
      have hvalue := h'.value
      rw [← hplace.demand, h] at hvalue
      obtain ⟨result, hcollected', hresult⟩ := hvalue
      have hcollects := hplace.collects hcollected hcollected'
      cases result with
      | error e =>
        rw [hresult]
        rfl
      | ok collected => exact absurd hcollects id
  | object h hcollected _ ih =>
    cases halike with
    | value hplace =>
      have hvalue := h'.value
      rw [← hplace.demand, h] at hvalue
      obtain ⟨result, hcollected', hresult⟩ := hvalue
      have hcollects := hplace.collects hcollected hcollected'
      cases result with
      | error e => exact absurd hcollects id
      | ok collected =>
        refine ih ?_ hresult
        exact ExecutionContext.asked_alike rfl rfl hplace.path hcollects
  | child _ ih =>
    cases halike with
    | @child _ child' hchild =>
      obtain ⟨type', place', result'⟩ := child'
      obtain ⟨rfl, hplace, rfl⟩ := hchild
      cases h' with
      | child h' => rw [Child.toOption_absorbed, Child.toOption_absorbed, ih (.value hplace) h']
  | unresolved =>
    cases halike with
    | @child _ child' hchild =>
      obtain ⟨type', place', result'⟩ := child'
      obtain ⟨rfl, hplace, rfl⟩ := hchild
      cases h' with
      | unresolved => rw [Child.toOption_absorbed, Child.toOption_absorbed]
  | @gathered shape children values hlength _ ih =>
    cases halike with
    | @gather _ _ children' hchildren =>
      have hlengths := hchildren.length_eq
      -- the value of a child with that of the child that is like it
      have hvalue : ∀ (i : Nat) (hi : i < values.length) (hi' : i < children'.length) out,
          Settles c (.child children'[i]) out → out.toOption = some values[i] := by
        intro i hi hi' out hout
        have hlike := hchildren.get (hlength ▸ hi) hi'
        exact (ih i _ _ (List.getElem?_eq_getElem (hlength ▸ hi)) (List.getElem?_eq_getElem hi) (.child hlike) hout).symm
      cases h' with
      | @gathered _ _ values' hlength' h' =>
        have hvalues : values = values' := by
          refine List.ext_getElem (by omega) fun i hi hi' => ?_
          have hchild := h' i _ _ (List.getElem?_eq_getElem (hlength' ▸ hi')) (List.getElem?_eq_getElem hi')
          exact (Option.some.inj (hvalue i hi _ _ hchild)).symm
        rw [hvalues]
      | @failed _ _ child' e hchild' h' =>
        obtain ⟨i, hi, rfl⟩ := List.getElem_of_mem hchild'
        exact absurd (hvalue i (by omega) hi _ h') (by simp [Except.toOption])
  | @failed shape children child e hchild _ ih =>
    cases halike with
    | @gather _ _ children' hchildren =>
      have hlengths := hchildren.length_eq
      obtain ⟨i, hi, rfl⟩ := List.getElem_of_mem hchild
      cases h' with
      | @gathered _ _ values' hlength' h' =>
        have hchild' := h' i _ _ (List.getElem?_eq_getElem (by omega)) (List.getElem?_eq_getElem (by omega))
        exact absurd (ih (.child (hchildren.get hi (by omega))) hchild') (by simp [Except.toOption])
      | failed => rfl

end GraphQL
