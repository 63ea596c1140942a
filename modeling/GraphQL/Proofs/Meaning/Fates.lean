import GraphQL.Proofs.Meaning.Settles
import Mathlib.Data.List.Forall2

/-!
# What may become of values

A value that is completed comes to an outcome, and errors may become null in it on the way.  `Asked.Comes c told a fate`
tells of both: what is asked for may come to an outcome if the errors that become null on the way are told, and an error
may be noted in it, at a child that is null then.  An error may be noted in what never comes to an outcome, and in what is
dropped.  The outcomes are those of `Settles` (`settles_iff`).
-/

namespace GraphQL

/-- What becomes of something that is completed: it comes to an outcome, or an error is noted in it. -/
inductive Fate where
  | out (outcome : Except Error Json)
  | note (e : Error)

/-- What may become of a child: errors of its value are located there, and if the type is nullable, they are noted.
Those that became null are told. -/
def Child.Fates (told : Error → Prop) (type : TypeRef) (place : Place) (value : Fate → Prop) : Fate → Prop
  | .out out => ∃ result, value (.out result) ∧ out = absorbed type place result ∧
      ∀ raw, result = .error raw → type.isNonNull = false → told (raw.locate place.group place.path)
  | .note e => value (.note e) ∨
      type.isNonNull = false ∧ ∃ raw, value (.out (.error raw)) ∧ e = raw.locate place.group place.path

/-- What may become of a value that must not be null. -/
def FieldInfo.Fates (info : FieldInfo) (value : Fate → Prop) : Fate → Prop
  | .out out => ∃ result, value (.out result) ∧ out = info.required result
  | .note e => value (.note e)

/-- What may become of parts that are put together: all their values, or an error of one of them; and an error may be
noted in each. -/
def Gathers (shape : Shape) (parts : List (Fate → Prop)) : Fate → Prop
  | .out out =>
    (∃ values : List Json, List.Forall₂ (fun part v => part (.out (.ok v))) parts values ∧
      out = .ok (shape.assemble values)) ∨
    ∃ part ∈ parts, ∃ e, part (.out (.error e)) ∧ out = .error e
  | .note e => ∃ part ∈ parts, part (.note e)

/-- What may become of what is asked for, if errors that became null are told. -/
inductive Asked.Comes (c : ExecutionContext) (told : Error → Prop) : Asked → Fate → Prop
  | outcome {type place v out} (h : c.demand type place v = .outcome out) : Comes c told (.value type place v) (.out out)
  | awaited {type place v later fate} (h : c.demand type place v = .value later)
      (hlater : Comes c told (.value type place later) fate) : Comes c told (.value type place v) fate
  | required {type place v inner result} (h : c.demand type place v = .required inner)
      (hinner : Comes c told (.value inner place v) (.out result)) :
      Comes c told (.value type place v) (.out (place.info.required result))
  | inRequired {type place v inner e} (h : c.demand type place v = .required inner)
      (hinner : Comes c told (.value inner place v) (.note e)) : Comes c told (.value type place v) (.note e)
  | unstreamed {type place v itemType source e} (h : c.demand type place v = .items itemType source)
      (husage : c.Streams place.group place.path (.error e)) : Comes c told (.value type place v) (.out (.error e))
  | unlisted {type place v itemType source usage e} (h : c.demand type place v = .items itemType source)
      (husage : c.Streams place.group place.path (.ok usage))
      (hfirst : source.first? (usage.map StreamUsage.initialCount) = some (.error e)) :
      Comes c told (.value type place v) (.out (.error (e.toError.locate place.group place.path)))
  | list {type place v itemType source usage items fate} (h : c.demand type place v = .items itemType source)
      (husage : c.Streams place.group place.path (.ok usage))
      (hfirst : source.first? (usage.map StreamUsage.initialCount) = some (.ok items))
      (hitems : Comes c told (.gather .list (itemChildren itemType place 0 items)) fate) :
      Comes c told (.value type place v) fate
  | uncollected {type place v typeName parent e} (h : c.demand type place v = .object typeName parent)
      (hcollected : c.Collects typeName place.group (.error e)) :
      Comes c told (.value type place v) (.out (.error e.toError))
  | object {type place v typeName parent collected fate} (h : c.demand type place v = .object typeName parent)
      (hcollected : c.Collects typeName place.group (.ok collected))
      (hfields : Comes c told (c.asked ⟨typeName, parent, place.path, collected.fields⟩) fate) :
      Comes c told (.value type place v) fate
  | child {type place v result} (h : Comes c told (.value type place v) (.out result))
      (htold : ∀ raw, result = .error raw → type.isNonNull = false → told (raw.locate place.group place.path)) :
      Comes c told (.child ⟨type, place, .ok v⟩) (.out (Child.absorbed type place result))
  | inChild {type place v e} (h : Comes c told (.value type place v) (.note e)) :
      Comes c told (.child ⟨type, place, .ok v⟩) (.note e)
  | atChild {type place v raw} (hnull : type.isNonNull = false)
      (h : Comes c told (.value type place v) (.out (.error raw))) :
      Comes c told (.child ⟨type, place, .ok v⟩) (.note (raw.locate place.group place.path))
  | unresolved {type place raw} (htold : type.isNonNull = false → told (raw.locate place.group place.path)) :
      Comes c told (.child ⟨type, place, .error raw⟩) (.out (Child.absorbed type place (.error raw)))
  | atUnresolved {type place raw} (hnull : type.isNonNull = false) :
      Comes c told (.child ⟨type, place, .error raw⟩) (.note (raw.locate place.group place.path))
  | gathered {shape} {children : List Child} {values : List Json} (hlength : values.length = children.length)
      (h : ∀ (i : Nat) child v, children[i]? = some child → values[i]? = some v →
        Comes c told (.child child) (.out (.ok v))) :
      Comes c told (.gather shape children) (.out (.ok (shape.assemble values)))
  | failed {shape children child e} (hchild : child ∈ children) (h : Comes c told (.child child) (.out (.error e))) :
      Comes c told (.gather shape children) (.out (.error e))
  | inGathered {shape children child e} (hchild : child ∈ children) (h : Comes c told (.child child) (.note e)) :
      Comes c told (.gather shape children) (.note e)

variable {c : ExecutionContext} {told : Error → Prop}

/-- What is asked for comes to its outcomes whatever is told. -/
theorem Asked.Comes.settles {a : Asked} {fate : Fate} (h : a.Comes c told fate) {out : Except Error Json}
    (hout : fate = .out out) : Settles c a out := by
  induction h generalizing out with
  | outcome h =>
    cases hout
    exact .outcome h
  | awaited h _ ih => exact .awaited h (ih hout)
  | required h _ ih =>
    cases hout
    exact .required h (ih rfl)
  | unstreamed h husage =>
    cases hout
    exact .unstreamed h husage
  | unlisted h husage hfirst =>
    cases hout
    exact .unlisted h husage hfirst
  | list h husage hfirst _ ih => exact .list h husage hfirst (ih hout)
  | uncollected h hcollected =>
    cases hout
    exact .uncollected h hcollected
  | object h hcollected _ ih => exact .object h hcollected (ih hout)
  | child _ _ ih =>
    cases hout
    exact .child (ih rfl)
  | unresolved =>
    cases hout
    exact .unresolved
  | gathered hlength _ ih =>
    cases hout
    exact .gathered hlength fun i child v hchild hv => ih i child v hchild hv rfl
  | failed hchild _ ih =>
    cases hout
    exact .failed hchild (ih rfl)
  | inRequired | inChild | atChild | atUnresolved | inGathered => exact absurd hout (by simp)

/-- Settling tells nothing of the errors on the way. -/
theorem settles_iff {a : Asked} {out : Except Error Json} : Settles c a out ↔ a.Comes c (fun _ => True) (.out out) := by
  refine ⟨fun h => ?_, fun h => h.settles rfl⟩
  induction h with
  | outcome h => exact .outcome h
  | awaited h _ ih => exact .awaited h ih
  | required h _ ih => exact .required h ih
  | unstreamed h husage => exact .unstreamed h husage
  | unlisted h husage hfirst => exact .unlisted h husage hfirst
  | list h husage hfirst _ ih => exact .list h husage hfirst ih
  | uncollected h hcollected => exact .uncollected h hcollected
  | object h hcollected _ ih => exact .object h hcollected ih
  | child _ ih => exact .child ih fun _ _ _ => trivial
  | unresolved => exact .unresolved fun _ => trivial
  | gathered hlength _ ih => exact .gathered hlength ih
  | failed hchild _ ih => exact .failed hchild ih

/-! ### Children -/

/-- What may become of a child with a result is that of its value. -/
theorem comes_child_iff {type : TypeRef} {place : Place} {v : FieldValue} {fate : Fate} :
    (Asked.child ⟨type, place, .ok v⟩).Comes c told fate ↔
      Child.Fates told type place ((Asked.value type place v).Comes c told) fate := by
  constructor
  · intro h
    cases h with
    | child h htold => exact ⟨_, h, rfl, htold⟩
    | inChild h => exact .inl h
    | atChild hnull h => exact .inr ⟨hnull, _, h, rfl⟩
  · intro h
    cases fate with
    | out out =>
      obtain ⟨result, h, rfl, htold⟩ := h
      exact .child h htold
    | note e =>
      rcases h with h | ⟨hnull, raw, h, rfl⟩
      · exact .inChild h
      · exact .atChild hnull h

/-- A child without a result has an error. -/
theorem comes_unresolved_iff {type : TypeRef} {place : Place} {e : Error} {fate : Fate} :
    (Asked.child ⟨type, place, .error e⟩).Comes c told fate ↔
      Child.Fates told type place (· = .out (.error e)) fate := by
  constructor
  · intro h
    cases h with
    | unresolved htold =>
      refine ⟨_, rfl, rfl, fun raw hraw => ?_⟩
      cases hraw
      exact htold
    | atUnresolved hnull => exact .inr ⟨hnull, _, rfl, rfl⟩
  · intro h
    cases fate with
    | out out =>
      obtain ⟨result, hresult, rfl, htold⟩ := h
      cases hresult
      exact .unresolved (htold e rfl)
    | note e' =>
      rcases h with h | ⟨hnull, raw, hraw, rfl⟩
      · exact absurd h (by simp)
      · cases hraw
        exact .atUnresolved hnull

/-- What may become of children together is that of one after the other. -/
theorem comes_gather_iff {shape : Shape} {children : List Child} {fate : Fate} :
    (Asked.gather shape children).Comes c told fate ↔
      Gathers shape (children.map fun child => (Asked.child child).Comes c told) fate := by
  constructor
  · intro h
    cases h with
    | @gathered _ _ values hlength h =>
      refine .inl ⟨values, ?_, rfl⟩
      rw [List.forall₂_map_left_iff]
      refine List.forall₂_iff_get.2 ⟨hlength.symm, fun i hi hi' => ?_⟩
      exact h i _ _ (List.getElem?_eq_getElem hi) (List.getElem?_eq_getElem hi')
    | failed hchild h => exact .inr ⟨_, List.mem_map_of_mem hchild, _, h, rfl⟩
    | inGathered hchild h => exact ⟨_, List.mem_map_of_mem hchild, h⟩
  · intro h
    cases fate with
    | out out =>
      rcases h with ⟨values, hvalues, rfl⟩ | ⟨part, hpart, e, he, rfl⟩
      · rw [List.forall₂_map_left_iff] at hvalues
        refine .gathered hvalues.length_eq.symm fun i child v hchild hv => ?_
        obtain ⟨hi, rfl⟩ := List.getElem?_eq_some_iff.1 hchild
        obtain ⟨hi', rfl⟩ := List.getElem?_eq_some_iff.1 hv
        exact (List.forall₂_iff_get.1 hvalues).2 i hi hi'
      · obtain ⟨child, hchild, rfl⟩ := List.mem_map.1 hpart
        exact .failed hchild he
    | note e =>
      obtain ⟨part, hpart, he⟩ := h
      obtain ⟨child, hchild, rfl⟩ := List.mem_map.1 hpart
      exact .inGathered hchild he

/-- Children together come to what they come to one by one. -/
theorem settles_gather_iff {shape : Shape} {children : List Child} {out : Except Error Json} :
    Settles c (.gather shape children) out ↔
      (∃ values : List Json, List.Forall₂ (fun child v => Settles c (.child child) (.ok v)) children values ∧
        out = .ok (shape.assemble values)) ∨
      ∃ child ∈ children, ∃ e, Settles c (.child child) (.error e) ∧ out = .error e := by
  simp only [settles_iff, comes_gather_iff, Gathers, List.forall₂_map_left_iff, List.mem_map, exists_exists_and_eq_and]

end GraphQL
