import GraphQL.Delivery.Payload

/-!
# What a client makes of a response

A client keeps the data of the initial result and brings the entries of all later ones into it, in their order.  The
data of a deferred fragment goes into the object at its path; the items of a streamed list go to the end of the list at
their path without its last index, which has to be the length of the list.  An entry whose path does not lead to such a
place cannot be brought in (`Json.assemble`).

Data in which there is such a place lets the entry in (`IncrementalEntry.FitsIn`), and so does what it became when other
fields were written into it (`IncrementalEntry.FitsIn.exists_applyTo`).
-/

namespace GraphQL

namespace Path

variable {p : Path} {steps : List PathSegment}

/-- Further steps. -/
def below (p : Path) (steps : List PathSegment) : Path := ⟨p.segments ++ steps⟩

@[simp]
theorem below_nil (p : Path) : p.below [] = p := by
  unfold below
  rw [List.append_nil]

theorem below_below (p : Path) (steps steps' : List PathSegment) :
    (p.below steps).below steps' = p.below (steps ++ steps') := by
  unfold below
  rw [List.append_assoc]

theorem below_key (p : Path) (steps : List PathSegment) (key : String) :
    (p.below steps).key key = p.below (steps ++ [.key key]) := p.below_below steps [.key key]

theorem below_index (p : Path) (steps : List PathSegment) (position : Nat) :
    (p.below steps).index position = p.below (steps ++ [.index position]) := p.below_below steps [.index position]

theorem below_inj {steps' : List PathSegment} : p.below steps = p.below steps' ↔ steps = steps' := by
  unfold below
  rw [Path.mk.injEq, List.append_cancel_left_eq]

theorem index_inj {q : Path} {position position' : Nat} :
    p.index position = q.index position' ↔ p = q ∧ position = position' := by
  unfold index
  rw [Path.mk.injEq, List.append_singleton_inj, PathSegment.index.injEq, ← Path.mk.injEq]

theorem startsWith_iff {above : Path} : p.startsWith above = true ↔ ∃ steps, p = above.below steps := by
  unfold startsWith below
  rw [List.isPrefixOf_iff_prefix]
  constructor
  · rintro ⟨steps, hsteps⟩
    exact ⟨steps, by rw [hsteps]⟩
  · rintro ⟨steps, rfl⟩
    exact List.prefix_append _ _

end Path

namespace Json

/-- The value that one step leads to. -/
def step? : Json → PathSegment → Option Json
  | .object fields, .key name => Dict.get? fields name
  | .array items, .index position => items[position]?
  | _, _ => none

/-- The value that steps lead to. -/
def at? (v : Json) (steps : List PathSegment) : Option Json := steps.foldlM step? v

@[simp]
theorem at?_nil (v : Json) : v.at? [] = some v := rfl

@[simp]
theorem at?_singleton (v : Json) (step : PathSegment) : v.at? [step] = v.step? step := by
  unfold at?
  rw [List.foldlM_cons]
  exact bind_pure _

theorem at?_append (v : Json) (steps steps' : List PathSegment) :
    v.at? (steps ++ steps') = (v.at? steps).bind (·.at? steps') := List.foldlM_append

/-- Changes the value at a path, if it is there and can be changed. -/
def updateAt (change : Json → Option Json) : List PathSegment → Json → Option Json
  | [], v => change v
  | .key name :: rest, object fields => do
    let v ← Dict.get? fields name
    return object (Dict.insert fields name (← updateAt change rest v))
  | .index i :: rest, array items => do
    let v ← items[i]?
    return array (items.set i (← updateAt change rest v))
  | _ :: _, _ => none

/-- Writes the entries of an object into another one. -/
def mergeFields : (data target : Json) → Option Json
  | object new, object fields => some (object (new.foldl (fun d e => Dict.insert d e.1 e.2) fields))
  | _, _ => none

/-- Adds items to a list that has so many items. -/
def appendItems (length : Nat) (new : List Json) : (target : Json) → Option Json
  | array items => if items.length = length then some (array (items ++ new)) else none
  | _ => none

end Json

/-- Brings an entry into the data. -/
def IncrementalEntry.applyTo (data : Json) : IncrementalEntry → Option Json
  | defer e => data.updateAt e.data.mergeFields e.path.segments
  | stream e =>
    match e.path.segments.getLast? with
    | some (.index i) => data.updateAt (Json.appendItems i e.items) e.path.segments.dropLast
    | _ => none

/-- Brings the entries of results into the data. -/
def Json.assemble (data : Json) (results : List SubsequentResult) : Option Json :=
  (results.flatMap SubsequentResult.incremental).foldlM IncrementalEntry.applyTo data

/-! ### Values that are changed -/

namespace Json

variable {v v' w w' d m data : Json} {steps : List PathSegment} {change : Json → Option Json}

theorem at?_cons (v : Json) (step : PathSegment) (steps : List PathSegment) :
    v.at? (step :: steps) = (v.step? step).bind (·.at? steps) := by
  rw [← List.singleton_append, at?_append, at?_singleton]

/-- What is there and can be changed is changed. -/
theorem exists_updateAt (hat : v.at? steps = some w) (hchange : change w = some w') :
    ∃ v', v.updateAt change steps = some v' := by
  induction steps generalizing v with
  | nil =>
    cases hat
    exact ⟨w', hchange⟩
  | cons step rest ih =>
    rw [at?_cons] at hat
    obtain ⟨u, hu, hat⟩ := Option.bind_eq_some_iff.1 hat
    obtain ⟨u', hu'⟩ := ih hat
    unfold step? at hu
    split at hu
    · exact ⟨_, by unfold updateAt; rw [hu, Option.bind_eq_bind, Option.bind_some, hu']; rfl⟩
    · exact ⟨_, by unfold updateAt; rw [hu, Option.bind_eq_bind, Option.bind_some, hu']; rfl⟩
    · exact absurd hu (by simp)

/-- What is changed was there, and is there in its new form. -/
theorem at?_updateAt (h : v.updateAt change steps = some v') :
    ∃ w w', v.at? steps = some w ∧ change w = some w' ∧ v'.at? steps = some w' := by
  induction steps generalizing v v' with
  | nil => exact ⟨v, v', rfl, h, rfl⟩
  | cons step rest ih =>
    simp only [at?_cons, Option.bind_eq_some_iff]
    cases step with
    | key name =>
      cases v with
      | object fields =>
        obtain ⟨u, hu, h⟩ := Option.bind_eq_some_iff.1 h
        obtain ⟨u', hu', heq⟩ := Option.bind_eq_some_iff.1 h
        cases heq
        obtain ⟨w, w', hw, hchange, hw'⟩ := ih hu'
        refine ⟨w, w', ⟨u, hu, hw⟩, hchange, u', ?_, hw'⟩
        show Dict.get? (Dict.insert fields name u') name = some u'
        rw [Dict.get?_insert, if_pos rfl]
      | _ => exact absurd h (by simp [updateAt])
    | index i =>
      cases v with
      | array items =>
        obtain ⟨u, hu, h⟩ := Option.bind_eq_some_iff.1 h
        obtain ⟨u', hu', heq⟩ := Option.bind_eq_some_iff.1 h
        cases heq
        obtain ⟨w, w', hw, hchange, hw'⟩ := ih hu'
        refine ⟨w, w', ⟨u, hu, hw⟩, hchange, u', ?_, hw'⟩
        show (items.set i u')[i]? = some u'
        rw [List.getElem?_set_self (List.getElem?_eq_some_iff.1 hu).1]
      | _ => exact absurd h (by simp [updateAt])

/-- There are objects and lists of the same length as in the other value. -/
def Offers (m d : Json) : Prop := ∀ steps,
  (∀ fields, d.at? steps = some (.object fields) → ∃ fields', m.at? steps = some (.object fields')) ∧
  ∀ items, d.at? steps = some (.array items) → ∃ items', m.at? steps = some (.array items') ∧ items'.length = items.length

theorem Offers.refl (d : Json) : d.Offers d := fun _ => ⟨fun fields h => ⟨fields, h⟩, fun items h => ⟨items, h, rfl⟩⟩

/-- Where the fields of an object are written, there is what it offers. -/
theorem Offers.of_mergeFields {new : Dict Json} (hkeys : (Dict.keys new).Nodup)
    (h : (object new).mergeFields w = some m) : m.Offers (object new) := by
  cases w with
  | object fields =>
    cases h
    intro steps
    cases steps with
    | nil => exact ⟨fun _ _ => ⟨_, rfl⟩, fun items hitems => absurd hitems (by simp)⟩
    | cons step rest =>
      have hkept : ∀ u, (object new).at? (step :: rest) = some u →
          (object (new.foldl (fun d e => Dict.insert d e.1 e.2) fields)).at? (step :: rest) = some u := by
        intro u hu
        rw [at?_cons] at hu ⊢
        obtain ⟨x, hx, hrest⟩ := Option.bind_eq_some_iff.1 hu
        cases step with
        | key name =>
          have hget : Dict.get? new name = some x := hx
          refine Option.bind_eq_some_iff.2 ⟨x, ?_, hrest⟩
          show Dict.get? (new.foldl (fun d e => Dict.insert d e.1 e.2) fields) name = some x
          rw [Dict.get?_foldl_insert hkeys, hget]
          rfl
        | index i => exact absurd hx (by simp [step?])
      exact ⟨fun fields' h => ⟨fields', hkept _ h⟩, fun items h => ⟨items, hkept _ h, rfl⟩⟩
  | _ => exact absurd h (by simp [mergeFields])

end Json

/-! ### Entries that are brought in -/

namespace IncrementalEntry

/-- The path of an entry. -/
def path : IncrementalEntry → Path
  | defer e => e.path
  | stream e => e.path

variable {entry : IncrementalEntry} {place : Path} {d m data data' v : Json}

/-- In the data that stands at the place there is an object for the fields that the entry brings, or a list for its
items. -/
inductive FitsIn (place : Path) (d : Json) : IncrementalEntry → Prop
  | fields {steps new fields label errors} (hat : d.at? steps = some (.object fields)) :
      FitsIn place d (.defer ⟨.object new, place.below steps, label, errors⟩)
  | items {steps items new label errors} (hat : d.at? steps = some (.array items)) :
      FitsIn place d (.stream ⟨new, (place.below steps).index items.length, label, errors⟩)

theorem applyTo_stream (data : Json) (new : List Json) (place : Path) (position : Nat) (label : Option String)
    (errors : List Error) : (stream ⟨new, place.index position, label, errors⟩).applyTo data =
      data.updateAt (Json.appendItems position new) place.segments := by
  have hsegments : (place.index position).segments = place.segments ++ [.index position] := rfl
  unfold applyTo
  dsimp only
  rw [hsegments, List.getLast?_concat, List.dropLast_concat]

/-- An entry that fits in can be brought in where the data stands that it fits in, or what offers as much. -/
theorem FitsIn.exists_applyTo (h : entry.FitsIn place d) (hat : data.at? place.segments = some m) (hoffers : m.Offers d) :
    ∃ data', entry.applyTo data = some data' := by
  cases h with
  | @fields steps new fields label errors hfields =>
    obtain ⟨fields', hfields'⟩ := (hoffers steps).1 fields hfields
    refine Json.exists_updateAt (w := .object fields') ?_ rfl
    show data.at? (place.segments ++ steps) = _
    rw [Json.at?_append, hat]
    exact hfields'
  | @items steps items new label errors hitems =>
    obtain ⟨items', hitems', hlength⟩ := (hoffers steps).2 items hitems
    rw [applyTo_stream]
    refine Json.exists_updateAt (w := .array items') ?_ (if_pos hlength)
    show data.at? (place.segments ++ steps) = _
    rw [Json.at?_append, hat]
    exact hitems'

/-- What fields were brought into offers what they offer. -/
theorem offers_of_applyTo {new : Dict Json} {label : Option String} {errors : List Error} (hkeys : (Dict.keys new).Nodup)
    (h : (defer ⟨.object new, place, label, errors⟩).applyTo data = some data') :
    ∃ m, data'.at? place.segments = some m ∧ m.Offers (.object new) := by
  obtain ⟨w, m, -, hmerge, hat⟩ := Json.at?_updateAt h
  exact ⟨m, hat, .of_mergeFields hkeys hmerge⟩

/-- An item that was brought in is the last of its list. -/
theorem at?_of_applyTo {position : Nat} {label : Option String} {errors : List Error}
    (h : (stream ⟨[v], place.index position, label, errors⟩).applyTo data = some data') :
    ∃ items, data'.at? place.segments = some (.array items) ∧ items.length = position + 1 ∧
      data'.at? (place.index position).segments = some v := by
  rw [applyTo_stream] at h
  obtain ⟨w, w', -, happend, hat⟩ := Json.at?_updateAt h
  cases w with
  | array items =>
    by_cases hlength : items.length = position
    · obtain rfl := Option.some.inj ((if_pos hlength).symm.trans happend)
      refine ⟨items ++ [v], hat, by rw [List.length_append, hlength]; rfl, ?_⟩
      show data'.at? (place.segments ++ [.index position]) = _
      rw [Json.at?_append, hat, Option.bind_some, Json.at?_singleton]
      show (items ++ [v])[position]? = some v
      rw [← hlength, List.getElem?_concat_length]
    · exact absurd ((if_neg hlength).symm.trans happend) (by simp)
  | _ => exact absurd happend (by simp [Json.appendItems])

end IncrementalEntry

end GraphQL
