import GraphQL.Proofs.Meaning.Grounded

/-!
# Where null stands

Inside of a value stand its parts (`Asked.Holds`), and each of them is what is asked for there comes to.  An error that
reaches a field or an item goes on to what is around it if the type of the child is non-null (`Asked.Reached`).  So
`Settles.upheld` says where null stands in a value: errors reach only nullable children, which are null then, and a child
is null only if its own value is null or an error reaches it.
-/

namespace GraphQL

namespace Asked

/-- What is asked for next inside of a value, and what it comes to there. -/
inductive Part (c : ExecutionContext) : Asked → Json → Asked → Json → Prop
  | awaited {type place v later w} (h : c.demand type place v = .value later) :
      Part c (.value type place v) w (.value type place later) w
  | required {type place v inner w} (h : c.demand type place v = .required inner) :
      Part c (.value type place v) w (.value inner place v) w
  | list {type place v itemType source usage items w} (h : c.demand type place v = .items itemType source)
      (husage : c.Streams place.group place.path (.ok usage))
      (hfirst : source.first? (usage.map StreamUsage.initialCount) = some (.ok items)) :
      Part c (.value type place v) w (.gather .list (itemChildren itemType place 0 items)) w
  | object {type place v typeName parent collected w} (h : c.demand type place v = .object typeName parent)
      (hcollected : c.Collects typeName place.group (.ok collected)) :
      Part c (.value type place v) w (c.asked ⟨typeName, parent, place.path, collected.fields⟩) w
  /-- Nothing stands inside of null. -/
  | child {type place v w} (hw : w ≠ .null) : Part c (.child ⟨type, place, .ok v⟩) w (.value type place v) w
  | item {chs ch values w} {i : Nat} (hchild : chs[i]? = some ch) (hvalue : values[i]? = some w) :
      Part c (.gather .list chs) (.array values) (.child ch) w
  | field {keys chs ch key w} {entries : List (String × Json)} {i : Nat} (hchild : chs[i]? = some ch)
      (hentry : entries[i]? = some (key, w)) : Part c (.gather (.object keys) chs) (.object entries) (.child ch) w

/-- In the value that is asked for stands another one. -/
inductive Holds (c : ExecutionContext) (a : Asked) (v : Json) : Asked → Json → Prop
  | self : Holds c a v a v
  | part {b w b' w'} (h : Holds c a v b w) (hpart : Part c b w b' w') : Holds c a v b' w'

/-- An error reaches what is asked for.  It is raised there, or it reaches a child that must not be null. -/
inductive Reached (c : ExecutionContext) : Asked → Prop
  | outcome {type place v e} (h : c.demand type place v = .outcome (.error e)) : Reached c (.value type place v)
  | awaited {type place v later} (h : c.demand type place v = .value later) (hr : Reached c (.value type place later)) :
      Reached c (.value type place v)
  | required {type place v inner} (h : c.demand type place v = .required inner) (hr : Reached c (.value inner place v)) :
      Reached c (.value type place v)
  | null {type place v inner} (h : c.demand type place v = .required inner)
      (hnull : Settles c (.value inner place v) (.ok .null)) : Reached c (.value type place v)
  | unstreamed {type place v itemType source e} (h : c.demand type place v = .items itemType source)
      (husage : c.Streams place.group place.path (.error e)) : Reached c (.value type place v)
  | unlisted {type place v itemType source usage e} (h : c.demand type place v = .items itemType source)
      (husage : c.Streams place.group place.path (.ok usage))
      (hfirst : source.first? (usage.map StreamUsage.initialCount) = some (.error e)) : Reached c (.value type place v)
  | list {type place v itemType source usage items} (h : c.demand type place v = .items itemType source)
      (husage : c.Streams place.group place.path (.ok usage))
      (hfirst : source.first? (usage.map StreamUsage.initialCount) = some (.ok items))
      (hr : Reached c (.gather .list (itemChildren itemType place 0 items))) : Reached c (.value type place v)
  | uncollected {type place v typeName parent e} (h : c.demand type place v = .object typeName parent)
      (hcollected : c.Collects typeName place.group (.error e)) : Reached c (.value type place v)
  | object {type place v typeName parent collected} (h : c.demand type place v = .object typeName parent)
      (hcollected : c.Collects typeName place.group (.ok collected))
      (hr : Reached c (c.asked ⟨typeName, parent, place.path, collected.fields⟩)) : Reached c (.value type place v)
  | child {type place v} (hr : Reached c (.value type place v)) : Reached c (.child ⟨type, place, .ok v⟩)
  | unresolved {type place e} : Reached c (.child ⟨type, place, .error e⟩)
  | gather {shape chs ch} (hchild : ch ∈ chs) (hnonNull : ch.type.isNonNull = true) (hr : Reached c (.child ch)) :
      Reached c (.gather shape chs)

/-- What an error comes to where it arrives: a child of a nullable type is null. -/
def absorbed : Asked → Error → Except Error Json
  | .child ch, e => Child.absorbed ch.type ch.place (.error e)
  | _, e => .error e

/-- Everything that stands directly in a value is a part of it. -/
def Exposes (c : ExecutionContext) (a : Asked) (w : Json) : Prop :=
  match a with
  | .value type place v => c.demand type place v = .outcome (.ok w) ∨ ∃ b, Part c a w b w
  | .child _ => w = .null ∨ ∃ b, Part c a w b w
  | .gather _ chs => ∃ values : List Json,
      (w = .array values ∨ ∃ entries, w = .object entries ∧ entries.map Prod.snd = values) ∧
      List.Forall₂ (fun ch v => Part c a w (.child ch) v) chs values

/-- The value is what is asked for comes to, and null stands in it only where an error was or the value is null. -/
structure Upheld (c : ExecutionContext) (a : Asked) (v : Json) : Prop where
  settles : Settles c a (.ok v)
  typed : a.IsTyped c v
  exposed : ∀ b w, a.Holds c v b w → b.Exposes c w
  /-- Errors reach only nullable children, which are null. -/
  reached : ∀ b w, a.Holds c v b w → b.Reached c → ∃ ch, b = .child ch ∧ ch.type.isNonNull = false ∧ w = .null
  /-- Children are null only if they may be, and because of an error or their own value. -/
  null : ∀ ch, a.Holds c v (.child ch) .null → ch.type.isNonNull = false ∧
    ((Asked.child ch).Reached c ∨
      ∃ value, ch.result = .ok value ∧ Settles c (.value ch.type ch.place value) (.ok .null))

end Asked

variable {c : ExecutionContext} {a b : Asked} {v w : Json}

/-! ### Parts -/

theorem Asked.Part.settles (hpart : a.Part c v b w) (hg : a.IsGrounded) (h : Settles c a (.ok v)) :
    b.IsGrounded ∧ Settles c b (.ok w) := by
  cases hpart with
  | awaited hdemand =>
    have hvalue := h.value
    rw [hdemand] at hvalue
    exact ⟨hg, hvalue⟩
  | @required _ place _ _ _ hdemand =>
    have hvalue := h.value
    rw [hdemand] at hvalue
    obtain ⟨result, hresult, heq⟩ := hvalue
    cases result with
    | error e => exact absurd heq (by simp [FieldInfo.required])
    | ok w' =>
      unfold FieldInfo.required at heq
      dsimp only at heq
      split at heq
      · exact absurd heq (by simp)
      · cases heq
        exact ⟨hg, hresult⟩
  | @list _ place _ _ _ usage _ _ hdemand husage hfirst =>
    have hvalue := h.value
    rw [hdemand] at hvalue
    obtain ⟨usage', husage', hlisted⟩ := hvalue
    have hplace : place.Alike place := ⟨FieldGroup.Grounded.alike hg, rfl, rfl⟩
    rw [← hplace.streams husage husage'] at hlisted
    unfold Settles.Listed at hlisted
    dsimp only [Except.map] at hlisted
    rw [hfirst] at hlisted
    exact ⟨grounded_itemChildren hg _ _, hlisted⟩
  | @object _ place _ typeName parent collected _ hdemand hcollected =>
    have hvalue := h.value
    rw [hdemand] at hvalue
    obtain ⟨result, hcollected', hresult⟩ := hvalue
    have hplace : place.Alike place := ⟨FieldGroup.Grounded.alike hg, rfl, rfl⟩
    have hcollects := hplace.collects hcollected' hcollected
    cases result with
    | error e => exact hcollects.elim
    | ok collected' =>
      exact ⟨grounded_collects hg hcollected parent, Settles.of_alike hresult (ExecutionContext.asked_alike rfl rfl rfl hcollects)⟩
  | @child type place value _ hw =>
    refine ⟨hg, ?_⟩
    generalize hout : Except.ok v = out at h
    cases h with
    | @child _ _ _ result h =>
      cases result with
      | ok w' =>
        cases hout
        exact h
      | error e =>
        unfold Child.absorbed at hout
        dsimp only at hout
        split at hout
        · exact absurd hout (by simp)
        · exact absurd (Except.ok.inj hout) hw
  | @item chs ch values _ i hchild hvalue =>
    refine ⟨hg.1 ch (List.mem_of_getElem? hchild), ?_⟩
    rw [settles_gather_iff] at h
    rcases h with ⟨values', hvalues, heq⟩ | ⟨_, _, _, _, heq⟩
    · obtain rfl : values = values' := Json.array.inj (Except.ok.inj heq)
      obtain ⟨hi, rfl⟩ := List.getElem?_eq_some_iff.1 hchild
      obtain ⟨hi', rfl⟩ := List.getElem?_eq_some_iff.1 hvalue
      exact hvalues.get hi hi'
    · exact absurd heq (by simp)
  | @field keys chs ch key _ entries i hchild hentry =>
    refine ⟨hg.1 ch (List.mem_of_getElem? hchild), ?_⟩
    rw [settles_gather_iff] at h
    rcases h with ⟨values', hvalues, heq⟩ | ⟨_, _, _, _, heq⟩
    · obtain rfl : entries = keys.zip values' := Json.object.inj (Except.ok.inj heq)
      rw [List.getElem?_zip_eq_some] at hentry
      obtain ⟨hi, rfl⟩ := List.getElem?_eq_some_iff.1 hchild
      obtain ⟨hi', rfl⟩ := List.getElem?_eq_some_iff.1 hentry.2
      exact hvalues.get hi hi'
    · exact absurd heq (by simp)

/-- What stands in a value is what is asked for there comes to. -/
theorem Asked.Holds.settles (hheld : a.Holds c v b w) (hg : a.IsGrounded) (h : Settles c a (.ok v)) :
    b.IsGrounded ∧ Settles c b (.ok w) := by
  induction hheld with
  | self => exact ⟨hg, h⟩
  | part _ hpart ih => exact hpart.settles ih.1 ih.2

/-- What stands directly in a value is a part of it. -/
theorem Settles.exposes (h : Settles c a (.ok v)) (hg : a.IsGrounded) : a.Exposes c v := by
  generalize hout : Except.ok v = out at h
  cases h with
  | outcome hdemand =>
    subst hout
    exact .inl hdemand
  | awaited hdemand => exact .inr ⟨_, .awaited hdemand⟩
  | required hdemand => exact .inr ⟨_, .required hdemand⟩
  | unstreamed => exact absurd hout (by simp)
  | unlisted => exact absurd hout (by simp)
  | list hdemand husage hfirst => exact .inr ⟨_, .list hdemand husage hfirst⟩
  | uncollected => exact absurd hout (by simp)
  | object hdemand hcollected => exact .inr ⟨_, .object hdemand hcollected⟩
  | child =>
    by_cases hv : v = .null
    · exact .inl hv
    · exact .inr ⟨_, .child hv⟩
  | unresolved =>
    unfold Child.absorbed at hout
    dsimp only at hout
    split at hout
    · exact absurd hout (by simp)
    · exact .inl (Except.ok.inj hout)
  | @gathered shape chs values hlength =>
    obtain rfl := Except.ok.inj hout
    refine ⟨values, ?_, List.forall₂_iff_get.2 ⟨hlength.symm, fun i hi hi' => ?_⟩⟩
    · cases shape with
      | list => exact .inl rfl
      | object keys => exact .inr ⟨_, rfl, List.map_snd_zip (by have := hg.2 keys rfl; omega)⟩
    · have hchild := List.getElem?_eq_getElem hi
      have hvalue := List.getElem?_eq_getElem hi'
      cases shape with
      | list => exact .item hchild hvalue
      | object keys =>
        have hkey := List.getElem?_eq_getElem (l := keys) (i := i) (by have := hg.2 keys rfl; omega)
        exact .field hchild (List.getElem?_zip_eq_some.2 ⟨hkey, hvalue⟩)
  | failed => exact absurd hout (by simp)

/-! ### Errors -/

/-- What an error reaches comes to one. -/
theorem Asked.Reached.settles (h : a.Reached c) : ∃ e, Settles c a (a.absorbed e) := by
  induction h with
  | outcome h => exact ⟨_, .outcome h⟩
  | awaited h _ ih =>
    obtain ⟨e, he⟩ := ih
    exact ⟨e, .awaited h he⟩
  | required h _ ih =>
    obtain ⟨e, he⟩ := ih
    exact ⟨e, .required h he⟩
  | null h hnull => exact ⟨_, .required h hnull⟩
  | unstreamed h husage => exact ⟨_, .unstreamed h husage⟩
  | unlisted h husage hfirst => exact ⟨_, .unlisted h husage hfirst⟩
  | list h husage hfirst _ ih =>
    obtain ⟨e, he⟩ := ih
    exact ⟨e, .list h husage hfirst he⟩
  | uncollected h hcollected => exact ⟨_, .uncollected h hcollected⟩
  | object h hcollected _ ih =>
    obtain ⟨e, he⟩ := ih
    exact ⟨e, .object h hcollected he⟩
  | child _ ih =>
    obtain ⟨e, he⟩ := ih
    exact ⟨e, .child he⟩
  | @unresolved _ _ e => exact ⟨e, .unresolved⟩
  | @gather _ _ ch hchild hnonNull _ ih =>
    obtain ⟨e, he⟩ := ih
    have heq : (Asked.child ch).absorbed e = .error (e.locate ch.place.group ch.place.path) := if_pos hnonNull
    rw [heq] at he
    exact ⟨_, .failed hchild he⟩

/-- What comes to an error was reached by one. -/
theorem Settles.reached {out : Except Error Json} (h : Settles c a out) (e : Error) (hout : out = .error e) :
    a.Reached c := by
  induction h generalizing e with
  | outcome h =>
    subst hout
    exact .outcome h
  | awaited h _ ih => exact .awaited h (ih e hout)
  | @required _ place _ _ result h hinner ih =>
    cases result with
    | error e' => exact .required h (ih e' rfl)
    | ok w =>
      unfold FieldInfo.required at hout
      dsimp only at hout
      split at hout
      · rename_i hnull
        rw [eq_null_of_isNull hnull] at hinner
        exact .null h hinner
      · exact absurd hout (by simp)
  | unstreamed h husage => exact .unstreamed h husage
  | unlisted h husage hfirst => exact .unlisted h husage hfirst
  | list h husage hfirst _ ih => exact .list h husage hfirst (ih e hout)
  | uncollected h hcollected => exact .uncollected h hcollected
  | object h hcollected _ ih => exact .object h hcollected (ih e hout)
  | @child _ _ _ result _ ih =>
    cases result with
    | error e' => exact .child (ih e' rfl)
    | ok w => exact absurd hout (by simp [Child.absorbed])
  | unresolved => exact .unresolved
  | gathered => exact absurd hout (by simp)
  | @failed _ _ ch e' hchild h ih =>
    refine .gather hchild ?_ (ih e' rfl)
    -- an error goes on only if the type is non-null
    by_contra hnullable
    generalize hout' : Except.error e' = out' at h
    cases h with
    | @child _ _ _ result =>
      cases result with
      | ok w => exact absurd hout' (by simp [Child.absorbed])
      | error e'' => exact absurd hout' (by simp_all [Child.absorbed])
    | unresolved => exact absurd hout' (by simp_all [Child.absorbed])

/-- What is asked for and is no child comes to an error exactly if one reaches it. -/
theorem Asked.reached_iff (hchild : ∀ ch, a ≠ .child ch) : a.Reached c ↔ ∃ e, Settles c a (.error e) := by
  refine ⟨fun h => ?_, fun ⟨e, h⟩ => h.reached e rfl⟩
  obtain ⟨e, h⟩ := h.settles
  cases a with
  | child ch => exact absurd rfl (hchild ch)
  | value => exact ⟨e, h⟩
  | gather => exact ⟨e, h⟩

/-- Only values of nullable types may be null. -/
theorem Conforms.isNonNull_eq_false {type : TypeRef} {group : FieldGroup} (h : Conforms c type group .null) :
    type.isNonNull = false := by
  generalize hv : Json.null = v at h
  cases h with
  | null hnull => exact hnull
  | nonNull _ hne => exact absurd hv.symm hne
  | leaf _ _ hne => exact absurd hv.symm hne
  | list => exact absurd hv (by simp)
  | object => exact absurd hv (by simp)

/-- What is asked for upholds where null stands in its value. -/
theorem Settles.upheld (h : Settles c a (.ok v)) (hg : a.IsGrounded) : a.Upheld c v := by
  refine ⟨h, h.conforms rfl, fun b w hheld => ?_, fun b w hheld hreached => ?_, fun ch hheld => ?_⟩
  · obtain ⟨hgb, hb⟩ := hheld.settles hg h
    exact hb.exposes hgb
  · obtain ⟨hgb, hb⟩ := hheld.settles hg h
    obtain ⟨e, he⟩ := hreached.settles
    have heq := hb.unique hgb he
    cases b with
    | child ch =>
      change (if ch.type.isNonNull then Except.error _ else .ok .null) = Except.ok w at heq
      split at heq
      · exact absurd heq (by simp)
      · rename_i hnullable
        exact ⟨ch, rfl, by simpa using hnullable, (Except.ok.inj heq).symm⟩
    | value => exact absurd heq (by simp [Asked.absorbed])
    | gather => exact absurd heq (by simp [Asked.absorbed])
  · obtain ⟨hgb, hb⟩ := hheld.settles hg h
    have htyped : Conforms c ch.type ch.place.group .null := hb.conforms rfl
    refine ⟨htyped.isNonNull_eq_false, ?_⟩
    generalize hout : Except.ok Json.null = out at hb
    cases hb with
    | @child type place value result hvalue =>
      cases result with
      | ok w =>
        cases hout
        exact .inr ⟨value, rfl, hvalue⟩
      | error e => exact .inl (.child (hvalue.reached e rfl))
    | unresolved => exact .inl .unresolved

end GraphQL
