import GraphQL.Proofs.Meaning.Positions

/-!
# Errors and nulls

If a value is there, then an error that is noted in what was asked for shows at a child of a nullable type that is null,
the outermost one around the child at which the error is noted (`Asked.Comes.absorbed`).  Conversely, a child of the value
that is null because of an error has told one that arose in it (`Asked.Comes.told`).
-/

namespace GraphQL

variable {c : ExecutionContext} {told : Error → Prop} {a a' b : Asked} {v w : Json} {path : Path} {e : Error}

namespace Asked

/-! ### Parts of parts -/

/-- What stands in a part stands in the value. -/
theorem Holds.cons {b' : Asked} {w' : Json} (hpart : a.Part c v b w) (h : b.Holds c w b' w') : a.Holds c v b' w' := by
  induction h with
  | self => exact .part .self hpart
  | part _ hpart' ih => exact .part ih hpart'

/-- What stands in a value is the value itself, or it stands in a part. -/
theorem Holds.eq_or_part (h : a.Holds c v b w) : (b = a ∧ w = v) ∨ ∃ b₁ w₁, a.Part c v b₁ w₁ ∧ b₁.Holds c w₁ b w := by
  induction h with
  | self => exact .inl ⟨rfl, rfl⟩
  | part _ hpart ih =>
    rcases ih with ⟨rfl, rfl⟩ | ⟨b₁, w₁, hpart₁, hheld₁⟩
    · exact .inr ⟨_, _, hpart, .self⟩
    · exact .inr ⟨b₁, w₁, hpart₁, .part hheld₁ hpart⟩

/-- Children that are put together are not null. -/
theorem not_settles_gather_null {shape : Shape} {chs : List Child} : ¬ Settles c (.gather shape chs) (.ok .null) := by
  intro h
  rw [settles_gather_iff] at h
  rcases h with ⟨values, -, heq⟩ | ⟨_, _, _, _, heq⟩
  · cases shape <;> exact absurd heq (by simp [Shape.assemble])
  · exact absurd heq (by simp)

/-- No child stands in a value that is null. -/
theorem Holds.not_child_of_null {type : TypeRef} {place : Place} {x : FieldValue} {ch : Child}
    (hheld : (value type place x).Holds c .null (.child ch) w) (hg : (value type place x).IsGrounded)
    (h : Settles c (.value type place x) (.ok .null)) : False := by
  have hvalue : ∀ {b w}, (value type place x).Holds c .null b w → w = .null ∧ ∃ type' x', b = .value type' place x' := by
    intro b w hheld
    induction hheld with
    | self => exact ⟨rfl, _, _, rfl⟩
    | part hheld hpart ih =>
      obtain ⟨rfl, _, _, rfl⟩ := ih
      obtain ⟨hg', h'⟩ := hheld.settles hg h
      have hnext := hpart.settles hg' h'
      cases hpart with
      | awaited => exact ⟨rfl, _, _, rfl⟩
      | required => exact ⟨rfl, _, _, rfl⟩
      | list => exact absurd hnext.2 not_settles_gather_null
      | object => exact absurd hnext.2 not_settles_gather_null
  obtain ⟨-, _, _, heq⟩ := hvalue hheld
  exact absurd heq (by simp)

/-! ### Where noted errors show -/

/-- The child stands in the value and is null because of an error. -/
structure Nulls (c : ExecutionContext) (a : Asked) (v : Json) (ch : Child) : Prop where
  held : a.Holds c v (.child ch) .null
  reached : (Asked.child ch).Reached c

/-- What is null in a part is null in the value. -/
theorem Nulls.of_part {ch : Child} (hpart : a.Part c v b w) (h : b.Nulls c w ch) : a.Nulls c v ch :=
  ⟨.cons hpart h.held, h.reached⟩

/-- A child is null if its value is, and its value comes to an error. -/
theorem Nulls.self {ch : Child} (hreached : (Asked.child ch).Reached c) (hg : (Asked.child ch).IsGrounded)
    (hnull : ch.type.isNonNull = false) (h : Settles c (.child ch) (.ok v)) : (Asked.child ch).Nulls c v ch := by
  obtain ⟨e, he⟩ := hreached.settles
  have habsorbed : (Asked.child ch).absorbed e = .ok .null := if_neg (by simp [hnull])
  rw [habsorbed] at he
  obtain rfl : Json.null = v := Except.ok.inj (h.unique hg he)
  exact ⟨.self, hreached⟩

/-- What is so of a part is so of the value. -/
theorem Part.nulls (hpart : a.Part c v b w) (hg : a.IsGrounded) (hv : Settles c a (.ok v)) {P : Child → Prop}
    (h : b.IsGrounded → Settles c b (.ok w) → ∃ ch, b.Nulls c w ch ∧ P ch) : ∃ ch, a.Nulls c v ch ∧ P ch := by
  obtain ⟨hgb, hb⟩ := hpart.settles hg hv
  obtain ⟨ch, hnulls, hch⟩ := h hgb hb
  exact ⟨ch, hnulls.of_part hpart, hch⟩

/-- An error that is noted is noted in a child that is null because of an error. -/
theorem Comes.nulls {fate : Fate} (h : a.Comes c told fate) (hfate : fate = .note e) (hg : a.IsGrounded)
    (hv : Settles c a (.ok v)) : ∃ ch, a.Nulls c v ch ∧ (Asked.child ch).Comes c told (.note e) := by
  induction h generalizing v with
  | awaited h _ ih => exact Part.nulls (.awaited h) hg hv (ih hfate)
  | inRequired h _ ih => exact Part.nulls (.required h) hg hv (ih hfate)
  | list h husage hfirst _ ih => exact Part.nulls (.list h husage hfirst) hg hv (ih hfate)
  | object h hcollected _ ih => exact Part.nulls (.object h hcollected) hg hv (ih hfate)
  | inChild h ih =>
    cases hfate
    by_cases hnull : v = .null
    · subst hnull
      generalize hout : Except.ok Json.null = out at hv
      cases hv with
      | @child _ _ _ result hvalue =>
        cases result with
        | error raw => exact ⟨_, ⟨.self, .child (hvalue.reached raw rfl)⟩, .inChild h⟩
        | ok w =>
          cases hout
          obtain ⟨ch, hnulls, -⟩ := ih rfl hg hvalue
          exact (hnulls.held.not_child_of_null hg hvalue).elim
    · exact Part.nulls (.child hnull) hg hv (ih rfl)
  | atChild hnull h =>
    cases hfate
    exact ⟨_, .self (.child ((h.settles rfl).reached _ rfl)) hg hnull hv, .atChild hnull h⟩
  | atUnresolved hnull =>
    cases hfate
    exact ⟨_, .self .unresolved hg hnull hv, .atUnresolved hnull⟩
  | @inGathered _ chs _ _ hchild _ ih =>
    obtain ⟨values, -, hparts⟩ := hv.exposes hg
    obtain ⟨i, hi, rfl⟩ := List.getElem_of_mem hchild
    exact Part.nulls (hparts.get hi (hparts.length_eq ▸ hi)) hg hv (ih hfate)
  | outcome | required | unstreamed | unlisted | uncollected | child | unresolved | gathered | failed =>
    exact absurd hfate (by simp)

/-! ### What nulls tell -/

/-- A child stands in what a value comes down to. -/
theorem Nulls.of_value {type : TypeRef} {place : Place} {x : FieldValue} {ch : Child}
    (h : (value type place x).Nulls c v ch) :
    match c.demand type place x with
    | .outcome _ => False
    | .value later => (Asked.value type place later).Nulls c v ch
    | .required inner => (Asked.value inner place x).Nulls c v ch
    | .items itemType source => ∃ usage items, c.Streams place.group place.path (.ok usage) ∧
      source.first? (usage.map StreamUsage.initialCount) = some (.ok items) ∧
      (Asked.gather .list (itemChildren itemType place 0 items)).Nulls c v ch
    | .object typeName parent => ∃ collected, c.Collects typeName place.group (.ok collected) ∧
      (c.asked ⟨typeName, parent, place.path, collected.fields⟩).Nulls c v ch := by
  obtain ⟨hheld, hreached⟩ := h
  rcases hheld.eq_or_part with ⟨heq, -⟩ | ⟨b, w, hpart, hheld⟩
  · exact absurd heq (by simp)
  · cases hpart with
    | awaited h =>
      rw [h]
      exact ⟨hheld, hreached⟩
    | required h =>
      rw [h]
      exact ⟨hheld, hreached⟩
    | list h husage hfirst =>
      rw [h]
      exact ⟨_, _, husage, hfirst, hheld, hreached⟩
    | object h hcollected =>
      rw [h]
      exact ⟨_, hcollected, hheld, hreached⟩

/-- A child stands in one of the children that are put together. -/
theorem Nulls.of_gather {shape : Shape} {chs : List Child} {values : List Json} {ch : Child}
    (h : (gather shape chs).Nulls c (shape.assemble values) ch) :
    ∃ (i : Nat) (inner : Child) (w : Json), chs[i]? = some inner ∧ values[i]? = some w ∧ (Asked.child inner).Nulls c w ch := by
  obtain ⟨hheld, hreached⟩ := h
  rcases hheld.eq_or_part with ⟨heq, -⟩ | ⟨b, w, hpart, hheld⟩
  · exact absurd heq (by simp)
  · generalize hvalue : shape.assemble values = v at hpart
    cases hpart with
    | @item _ inner values' _ i hchild hitem =>
      obtain rfl : values = values' := Json.array.inj hvalue
      exact ⟨i, inner, w, hchild, hitem, hheld, hreached⟩
    | @field keys _ inner key _ entries i hchild hentry =>
      obtain rfl : keys.zip values = entries := Json.object.inj hvalue
      rw [List.getElem?_zip_eq_some] at hentry
      exact ⟨i, inner, w, hchild, hentry.2, hheld, hreached⟩

/-- An error becomes null only if the type allows it. -/
theorem isNonNull_of_absorbed {type : TypeRef} {place : Place} {raw : Error}
    (h : Child.absorbed type place (.error raw) = .ok v) : type.isNonNull = false := by
  unfold Child.absorbed at h
  dsimp only at h
  split at h
  · exact absurd h (by simp)
  · rename_i hnull
    simpa using hnull

theorem eq_null_of_absorbed {type : TypeRef} {place : Place} {raw : Error}
    (h : Child.absorbed type place (.error raw) = .ok v) : v = .null := by
  have hnull : Child.absorbed type place (.error raw) = .ok .null := if_neg (by simp [isNonNull_of_absorbed h])
  exact Except.ok.inj (h.symm.trans hnull)

/-- A child that is null because of an error has told one that arose in it. -/
theorem Comes.told_of_nulls {fate : Fate} (h : a.Comes c told fate) (hfate : fate = .out (.ok v)) (halike : a.Alike a')
    (hstands : a.StandsAt path) {ch : Child} (hnulls : a'.Nulls c v ch) :
    ∃ e, told e ∧ ∃ q, e.path = some q ∧ q.startsWith ch.place.path = true := by
  induction h generalizing a' v path with
  | outcome h =>
    cases halike with
    | value hplace =>
      have hin := hnulls.of_value
      rw [← hplace.demand, h] at hin
      exact hin.elim
  | awaited h _ ih =>
    cases halike with
    | value hplace =>
      have hin := hnulls.of_value
      rw [← hplace.demand, h] at hin
      exact ih hfate (.value hplace) hstands hin
  | @required _ _ _ _ result h _ ih =>
    cases halike with
    | value hplace =>
      have hin := hnulls.of_value
      rw [← hplace.demand, h] at hin
      refine ih ?_ (.value hplace) hstands hin
      cases result with
      | error e => exact absurd hfate (by simp [FieldInfo.required])
      | ok w =>
        unfold FieldInfo.required at hfate
        dsimp only at hfate
        split at hfate
        · exact absurd hfate (by simp)
        · exact hfate
  | @list _ _ _ _ _ usage _ _ h husage hfirst _ ih =>
    cases halike with
    | value hplace =>
      have hin := hnulls.of_value
      rw [← hplace.demand, h] at hin
      obtain ⟨usage', items', husage', hfirst', hin⟩ := hin
      have hcount : usage.map StreamUsage.initialCount = usage'.map StreamUsage.initialCount :=
        Except.ok.inj (hplace.streams husage husage')
      rw [← hcount, hfirst] at hfirst'
      obtain rfl := Except.ok.inj (Option.some.inj hfirst')
      exact ih hfate (.gather (itemChildren_alike hplace _ 0 _)) (standsAt_itemChildren _ _ _) hin
  | object h hcollected _ ih =>
    cases halike with
    | value hplace =>
      have hin := hnulls.of_value
      rw [← hplace.demand, h] at hin
      obtain ⟨collected', hcollected', hin⟩ := hin
      refine ih hfate ?_ (hcollected.standsAt _) hin
      exact ExecutionContext.asked_alike rfl rfl hplace.path (hplace.collects hcollected hcollected')
  | @child type place x result h htold ih =>
    cases halike with
    | @child _ child' hchild =>
      obtain ⟨type', place', result'⟩ := child'
      obtain ⟨rfl, hplace, rfl⟩ := hchild
      have habsorbed : Child.absorbed type place result = .ok v := Fate.out.inj hfate
      rcases hnulls.held.eq_or_part with ⟨heq, -⟩ | ⟨b, w, hpart, hheld⟩
      · cases heq
        -- its value comes to an error, which is located there if it was not located before
        obtain ⟨raw, rfl⟩ : ∃ raw, result = .error raw := by
          cases hnulls.reached with
          | child hreached =>
            obtain ⟨e, he⟩ := hreached.settles
            have hagrees := (h.settles rfl).agrees (.value hplace) he
            cases result with
            | error raw => exact ⟨raw, rfl⟩
            | ok w => exact absurd hagrees (by simp [absorbed, Except.toOption])
        refine ⟨_, htold raw rfl (isNonNull_of_absorbed habsorbed), ?_⟩
        have harises := Throws.arises_locate h.traces
        obtain ⟨q, hq, hbelow⟩ := harises.startsWith hstands
        exact ⟨q, hq, (hplace.path.symm.trans hstands.1) ▸ hbelow⟩
      · cases hpart with
        | child hw =>
          cases result with
          | error raw => exact absurd (eq_null_of_absorbed habsorbed) hw
          | ok w =>
            cases habsorbed
            exact ih rfl (.value hplace) hstands.1 ⟨hheld, hnulls.reached⟩
  | @unresolved type place raw htold =>
    cases halike with
    | @child _ child' hchild =>
      obtain ⟨type', place', result'⟩ := child'
      obtain ⟨rfl, hplace, rfl⟩ := hchild
      have habsorbed : Child.absorbed type place (.error raw) = .ok v := Fate.out.inj hfate
      rcases hnulls.held.eq_or_part with ⟨heq, -⟩ | ⟨b, w, hpart, -⟩
      · cases heq
        refine ⟨_, htold (isNonNull_of_absorbed habsorbed), ?_⟩
        have harises : (Asked.child ⟨type, place, .error raw⟩).Arises c (raw.locate place.group place.path) :=
          ⟨_, raw, .self, .unresolved, rfl⟩
        obtain ⟨q, hq, hbelow⟩ := harises.startsWith hstands
        exact ⟨q, hq, (hplace.path.symm.trans hstands.1) ▸ hbelow⟩
      · cases hpart
  | @gathered _ children _ _ _ ih =>
    cases halike with
    | @gather _ _ children' hchildren =>
      obtain rfl := Except.ok.inj (Fate.out.inj hfate)
      obtain ⟨i, inner', w, hinner', hw, hin⟩ := hnulls.of_gather
      obtain ⟨hi, rfl⟩ := List.getElem?_eq_some_iff.1 hinner'
      have hi' : i < children.length := hchildren.length_eq.symm ▸ hi
      have hinner := List.getElem?_eq_getElem hi'
      obtain ⟨step, -, hstands⟩ := hstands.2 i _ hinner
      exact ih i _ w hinner hw rfl (.child (hchildren.get hi' hi)) hstands hin
  | inRequired | unstreamed | unlisted | uncollected | inChild | atChild | atUnresolved | failed | inGathered =>
    exact absurd hfate (by simp)

end Asked

end GraphQL
