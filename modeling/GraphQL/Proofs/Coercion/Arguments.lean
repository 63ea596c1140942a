import GraphQL.Coercion.Arguments
import GraphQL.Proofs.Coercion.Literals

/-!
# Arguments are sound

An argument takes the value that is written for it, and its default if nothing is written or only a variable without a value
(`InputFieldDef.Takes`); otherwise it is refused (`InputFieldDef.Refuses`).  The values are of the types of the arguments at
every depth, if those of the variables are and the defaults are (`argumentValues_sound`), with one exception: a number beyond
the largest double is null for a scalar that is not built in, also where null must not be (`Literal.Overflows`).
-/

namespace GraphQL

/-- The input objects that are reached from a type. -/
inductive Schema.Reaches (s : Schema) : (typeName : String) → InputObjectDef → Prop
  | here {name d} (hd : Dict.get? s.types name = some (.inputObject d)) : Reaches s name d
  | field {name d f d'} (hd : Dict.get? s.types name = some (.inputObject d)) (hf : f ∈ Dict.values d.fields)
      (h : Reaches s f.type.innermost d') : Reaches s name d'

/-- The defaults of all input fields that are reached from a type are of the types of the fields. -/
def Schema.DefaultsConform (s : Schema) (typeName : String) : Prop :=
  ∀ d, s.Reaches typeName d → ∀ f ∈ Dict.values d.fields, ∀ v, f.default = some v → Json.IsOfType s v f.type

theorem Schema.DefaultsConform.field {s : Schema} {name : String} (h : s.DefaultsConform name) {d : InputObjectDef}
    (hd : Dict.get? s.types name = some (.inputObject d)) {f : InputFieldDef} (hf : f ∈ Dict.values d.fields) :
    s.DefaultsConform f.type.innermost :=
  fun d' hd' => h d' (.field hd hf hd')

/-- Null is not of a type that excludes it. -/
theorem Json.IsOfType.ne_null {s : Schema} {v : Json} {t : TypeRef} (h : Json.IsOfType s v t) (ht : t.isNonNull = true) :
    v ≠ .null := by
  cases h with
  | null h => exact absurd ht (by simp [h])
  | nonNull hv => exact hv
  | _ => exact absurd ht (by simp [TypeRef.isNonNull])

namespace Literal

/-- A variable is used in a literal where a value of a type is wanted. -/
inductive Uses (s : Schema) : Literal → TypeRef → (variableName : String) → TypeRef → Prop
  | here {x t} : Uses s (.variable x) t x.value t
  | nonNull {l t x wanted} (hl : l.IsPlain) (h : Uses s l t x wanted) : Uses s l (.nonNull t) x wanted
  | item {items l t x wanted} (hl : l ∈ items) (h : Uses s l t x wanted) : Uses s (.list items) (.list t) x wanted
  | single {l t x wanted} (hl : l.IsPlain) (hitems : ∀ items, l ≠ .list items) (h : Uses s l t x wanted) :
      Uses s l (.list t) x wanted
  | field {name d fields f l x wanted} (hd : Dict.get? s.types name = some (.inputObject d)) (hf : f ∈ Dict.values d.fields)
      (hl : field? fields f.name = some l) (h : Uses s l f.type x wanted) : Uses s (.object fields) (.named name) x wanted

/-- In the literal is a number beyond the largest double, where the value of a scalar that is not built in is wanted and must
not be null. -/
inductive Overflows (s : Schema) : Literal → TypeRef → Prop
  | here {name d} {number : Double} (hd : Dict.get? s.types name = some (.scalar d))
      (hname : name ∉ ["Int", "Float", "String", "Boolean", "ID"]) (h : number.isFinite = false) :
      Overflows s (.float number) (.nonNull (.named name))
  | nonNull {l t} (h : Overflows s l t) : Overflows s l (.nonNull t)
  | item {items l t} (hl : l ∈ items) (h : Overflows s l t) : Overflows s (.list items) (.list t)
  | single {l t} (hitems : ∀ items, l ≠ .list items) (h : Overflows s l t) : Overflows s l (.list t)
  | field {name d fields f l} (hd : Dict.get? s.types name = some (.inputObject d)) (hf : f ∈ Dict.values d.fields)
      (hl : field? fields f.name = some l) (h : Overflows s l f.type) : Overflows s (.object fields) (.named name)

variable {s : Schema} {vars : Variables}

theorem Overflows.isPlain {l : Literal} {t : TypeRef} (h : Overflows s l t) : l.IsPlain := by
  induction h with
  | here => exact ⟨by simp, by simp⟩
  | nonNull _ ih => exact ih
  | item => exact ⟨by simp, by simp⟩
  | single _ _ ih => exact ih
  | field => exact ⟨by simp, by simp⟩

theorem IsPlain.isMissing_eq {l : Literal} (hl : l.IsPlain) : l.isMissing vars = false := by
  cases l with
  | «variable» x => exact absurd rfl (hl.2 x)
  | _ => rfl

theorem field?_of_given? {fields : List (Name × Literal)} {name : String} {l : Literal}
    (h : given? vars fields name = some l) : field? fields name = some l :=
  (Option.filter_eq_some_iff.1 h).1

theorem IsPlain.given?_eq {fields : List (Name × Literal)} {name : String} {l : Literal} (hl : l.IsPlain)
    (h : field? fields name = some l) : given? vars fields name = some l :=
  Option.filter_eq_some_iff.2 ⟨h, by simp [hl.isMissing_eq]⟩

/-- What a scalar takes a literal for, it has. -/
theorem MeansScalar.isOfScalar {name : String} {l : Literal} {v : Json} (h : MeansScalar name l v) : v.IsOfScalar name := by
  cases h with
  | int h => exact h
  | custom hname => exact (Json.ReadsScalar.custom hname v).isOfScalar
  | _ => trivial

/-- A scalar that is built in takes no literal for null; another takes a number beyond the largest double for null. -/
theorem MeansScalar.of_null {name : String} {l : Literal} (hl : l.IsPlain) (h : MeansScalar name l .null) :
    name ∉ ["Int", "Float", "String", "Boolean", "ID"] ∧ ∃ number : Double, l = .float number ∧ number.isFinite = false := by
  cases h with
  | custom hname h =>
    refine ⟨hname, ?_⟩
    cases l with
    | null => exact absurd rfl hl.1
    | float number =>
      refine ⟨number, rfl, ?_⟩
      cases hfinite : number.isFinite with
      | false => rfl
      | true => simp [untyped?, hfinite] at h
    | list items => simp [untyped?] at h
    | object fields => simp [untyped?] at h
    | _ => simp [untyped?, Json.ofInt] at h

/-- A literal that is not null means null only if it overflows where null must not be. -/
theorem Means.overflows {l : Literal} {t : TypeRef} {v : Json} (h : Means s vars l t v) (hv : v = .null)
    (hl : l.IsPlain) : Overflows s l (.nonNull t) := by
  induction h with
  | bound => exact absurd rfl (hl.2 _)
  | null => exact absurd rfl hl.1
  | nonNull hl _ ih => exact .nonNull (ih hv hl)
  | scalar hd hl h =>
    obtain ⟨hname, number, rfl, hnumber⟩ := MeansScalar.of_null hl (hv ▸ h)
    exact .here hd hname hnumber
  | _ => exact absurd hv (by simp)

/-- What a literal means is of the type, unless the literal overflows. -/
theorem Means.isOfType (hs : s.Built) {l : Literal} {t : TypeRef} {v : Json} (h : Means s vars l t v)
    (hdefaults : s.DefaultsConform t.innermost)
    (hvars : ∀ x wanted, Uses s l t x wanted → ∀ v, Dict.get? vars x = some v → v = .null ∨ Json.IsOfType s v wanted.nullable)
    (hfits : ¬ Overflows s l t) : Json.IsOfType s v t := by
  induction h with
  | @bound x t v hv hnull =>
    by_cases hvalue : v = .null
    · subst hvalue
      exact .null (hnull rfl)
    · have htype := (hvars _ _ .here v hv).resolve_left hvalue
      cases t with
      | nonNull t => exact .nonNull hvalue htype
      | _ => exact htype
  | null h => exact .null h
  | nonNull hl h ih =>
    refine .nonNull (fun hv => hfits (h.overflows hv hl)) ?_
    exact ih hdefaults (fun x wanted huses => hvars x wanted (.nonNull hl huses)) fun hover => hfits (.nonNull hover)
  | @list items ws t hlength h hmissing ih =>
    refine .list fun w hw => ?_
    obtain ⟨i, hi⟩ := List.getElem?_of_mem hw
    obtain ⟨hlt, -⟩ := List.getElem?_eq_some_iff.1 hi
    have hl := List.getElem?_eq_getElem (hlength ▸ hlt)
    have hmem := List.mem_of_getElem? hl
    cases hitem : items[i].isMissing vars with
    | true =>
      obtain ⟨rfl, ht⟩ := hmissing i _ w hl hi hitem
      exact .null ht
    | false =>
      exact ih i _ w hl hi hitem hdefaults (fun x wanted huses => hvars x wanted (.item hmem huses))
        fun hover => hfits (.item hmem hover)
  | single hl hitems _ ih =>
    refine .list fun w hw => ?_
    obtain rfl := List.mem_singleton.1 hw
    exact ih hdefaults (fun x wanted huses => hvars x wanted (.single hl hitems huses))
      fun hover => hfits (.single hitems hover)
  | @scalar name d l v hd hl h =>
    by_cases hv : v = .null
    · exact hv ▸ .null rfl
    · exact .scalar hd hv h.isOfScalar
  | enum hd h => exact .enum hd h
  | @object name d fields ws hd horder hthere hread hmissing ih =>
    refine .of_fields hs hd horder (fun f hf hnone => ?_) fun f hf w hw => ?_
    · cases hl : given? vars fields f.name with
      | some l =>
        obtain ⟨w, hw⟩ := hthere f hf l hl
        exact absurd (hw.symm.trans hnone) (by simp)
      | none =>
        obtain ⟨hdefault, hnullable⟩ := hmissing f hf hl
        have hdefault : f.default = none := hdefault.symm.trans hnone
        exact ⟨hdefault, hnullable hdefault⟩
    · cases hl : given? vars fields f.name with
      | some l =>
        have hfield := field?_of_given? hl
        exact ih f hf l w hl hw (hdefaults.field hd hf) (fun x wanted huses => hvars x wanted (.field hd hf hfield huses))
          fun hover => hfits (.field hd hf hfield hover)
      | none => exact hdefaults d (.here hd) f hf w ((hmissing f hf hl).1.symm.trans hw)

/-- Where null must not be, a number beyond the largest double means null for a scalar that is not built in. -/
theorem Means.eq_null {name : String} (hname : name ∉ ["Int", "Float", "String", "Boolean", "ID"]) {number : Double}
    (hnumber : number.isFinite = false) {v : Json} (h : Means s vars (.float number) (.nonNull (.named name)) v) :
    v = .null := by
  cases h with
  | nonNull _ h =>
    cases h with
    | scalar _ _ hscalar =>
      cases hscalar with
      | custom _ h => simpa [untyped?, hnumber] using h.symm
      | _ => exact absurd hname (by simp)

/-- What an overflowing literal means is not of the type. -/
theorem Overflows.not_isOfType (hs : s.Built) {l : Literal} {t : TypeRef} (h : Overflows s l t) {v : Json}
    (hmeans : Means s vars l t v) : ¬ Json.IsOfType s v t := by
  induction h generalizing v with
  | here _ hname hnumber => exact fun htype => htype.ne_null rfl (hmeans.eq_null hname hnumber)
  | nonNull h ih =>
    intro htype
    cases htype with
    | null h => exact absurd h (by simp [TypeRef.isNonNull])
    | nonNull _ htype =>
      cases hmeans with
      | bound => exact h.isPlain.2 _ rfl
      | null => exact h.isPlain.1 rfl
      | nonNull _ hmeans => exact ih hmeans htype
  | item hl h ih =>
    intro htype
    cases hmeans with
    | single _ hitems => exact hitems _ rfl
    | list hlength hread _ =>
      cases htype with
      | list htype =>
        obtain ⟨i, hi⟩ := List.getElem?_of_mem hl
        obtain ⟨hlt, -⟩ := List.getElem?_eq_some_iff.1 hi
        have hw := List.getElem?_eq_getElem (hlength ▸ hlt)
        exact ih (hread i _ _ hi hw h.isPlain.isMissing_eq) (htype _ (List.mem_of_getElem? hw))
  | single hitems h ih =>
    intro htype
    cases hmeans with
    | bound => exact h.isPlain.2 _ rfl
    | null => exact h.isPlain.1 rfl
    | list => exact hitems _ rfl
    | single _ _ hmeans =>
      cases htype with
      | list htype => exact ih hmeans (htype _ List.mem_cons_self)
  | @field name d fields f l hd hf hl h ih =>
    intro htype
    cases hmeans with
    | scalar hd' => exact absurd (hd.symm.trans hd') (by simp)
    | @object _ d' _ ws hd' horder hthere hread _ =>
      obtain rfl := TypeDef.inputObject.inj (Option.some.inj (hd.symm.trans hd'))
      have hgiven : given? vars fields f.name = some l := h.isPlain.given?_eq hl
      obtain ⟨w, hw⟩ := hthere f hf l hgiven
      cases htype with
      | scalar hd' => exact absurd (hd.symm.trans hd') (by simp)
      | object hd' _ _ hfields =>
        obtain rfl := TypeDef.inputObject.inj (Option.some.inj (hd.symm.trans hd'))
        have hdef := (hs.keyed hd).2.get?_of_mem hf
        exact ih (hread f hf l w hgiven hw) (hfields _ (Dict.mem_of_get? hw) f hdef)

end Literal

/-! ### One argument -/

namespace InputFieldDef

/-- The literal that is written for an argument. -/
def written? (d : InputFieldDef) (written : List Argument) : Option Literal :=
  (written.find? (·.name.value = d.name)).map Argument.value

/-- Nothing is written for the argument, or only a variable without a value. -/
def IsOpen (vars : Variables) (written : List Argument) (d : InputFieldDef) : Prop :=
  d.written? written = none ∨ ∃ x, d.written? written = some (.variable x) ∧ Dict.get? vars x.value = none

/-- The value that an argument takes, or none if it is left out. -/
inductive Takes (s : Schema) (vars : Variables) (written : List Argument) (d : InputFieldDef) : Option Json → Prop
  | absent (h : d.IsOpen vars written) (hnullable : d.default = none → d.type.isNonNull = false) :
      Takes s vars written d d.default
  | bound {x v} (h : d.written? written = some (.variable x)) (hv : Dict.get? vars x.value = some v)
      (hnull : v = .null → d.type.isNonNull = false) : Takes s vars written d (some v)
  | literal {l v} (h : d.written? written = some l) (hl : ∀ x, l ≠ .variable x) (hmeans : l.Means s vars d.type v) :
      Takes s vars written d (some v)

/-- Why an argument takes no value. -/
inductive Refuses (s : Schema) (vars : Variables) (written : List Argument) (d : InputFieldDef) : ArgumentError → Prop
  | missing (h : d.written? written = none) (hdefault : d.default = none) (hrequired : d.type.isNonNull = true) :
      Refuses s vars written d (.missing d.name d.type)
  | missingVariable {x} (h : d.written? written = some (.variable x)) (hv : Dict.get? vars x.value = none)
      (hdefault : d.default = none) (hrequired : d.type.isNonNull = true) :
      Refuses s vars written d (.missingVariable d.name d.type x.value)
  | unexpectedNull {x} (h : d.written? written = some (.variable x)) (hv : Dict.get? vars x.value = some .null)
      (hrequired : d.type.isNonNull = true) : Refuses s vars written d (.unexpectedNull d.name d.type)
  | invalid {l} (h : d.written? written = some l) (hl : ∀ x, l ≠ .variable x) (hmisfits : l.Misfits s vars d.type) :
      Refuses s vars written d (.invalid d.name l)

variable {s : Schema} {vars : Variables} {written : List Argument} {d : InputFieldDef}

theorem absentValue_eq (d : InputFieldDef) (absent : ArgumentError) :
    d.absentValue absent =
      if d.default = none ∧ d.type.isNonNull = true then .error absent else .ok d.default := by
  unfold absentValue
  cases d.default with
  | some default => simp
  | none => cases d.type.isNonNull <;> simp

theorem argumentValue_missing (h : d.written? written = none) :
    d.argumentValue s vars written = d.absentValue (.missing d.name d.type) := by
  unfold argumentValue
  rw [show (written.find? (·.name.value = d.name)).map Argument.value = none from h]

theorem argumentValue_variable {x : Name} (h : d.written? written = some (.variable x)) :
    d.argumentValue s vars written =
      match Dict.get? vars x.value with
      | none => d.absentValue (.missingVariable d.name d.type x.value)
      | some v => if v.isNull && d.type.isNonNull then .error (.unexpectedNull d.name d.type) else .ok (some v) := by
  unfold argumentValue
  rewrite [show (written.find? (·.name.value = d.name)).map Argument.value = some (.variable x) from h]
  rfl

theorem argumentValue_literal {l : Literal} (h : d.written? written = some l) (hl : ∀ x, l ≠ .variable x) :
    d.argumentValue s vars written =
      match l.valueAt? s vars d.type with
      | some v => .ok (some v)
      | none => .error (.invalid d.name l) := by
  unfold argumentValue
  rw [show (written.find? (·.name.value = d.name)).map Argument.value = some l from h]
  cases l with
  | «variable» x => exact absurd rfl (hl x)
  | _ => rfl

/-- An argument for which nothing is there takes its default, unless it has none and must not be null. -/
theorem absent_cases (h : d.IsOpen vars written) {absent : ArgumentError}
    (hrefused : d.default = none → d.type.isNonNull = true → d.Refuses s vars written absent) :
    (∃ o, d.absentValue absent = .ok o ∧ d.Takes s vars written o) ∨
      ∃ e, d.absentValue absent = .error e ∧ d.Refuses s vars written e := by
  rw [absentValue_eq]
  by_cases hrequired : d.default = none ∧ d.type.isNonNull = true
  · exact .inr ⟨absent, if_pos hrequired, hrefused hrequired.1 hrequired.2⟩
  · exact .inl ⟨d.default, if_neg hrequired, .absent h fun hdefault => by simpa [hdefault] using hrequired⟩

/-- Every argument takes a value, is left out or is refused. -/
theorem argumentValue_cases (hs : s.Built) (vars : Variables) (written : List Argument) (d : InputFieldDef) :
    (∃ o, d.argumentValue s vars written = .ok o ∧ d.Takes s vars written o) ∨
      ∃ e, d.argumentValue s vars written = .error e ∧ d.Refuses s vars written e := by
  cases h : d.written? written with
  | none =>
    rw [argumentValue_missing h]
    exact absent_cases (.inl h) fun hdefault hrequired => .missing h hdefault hrequired
  | some l =>
    by_cases hl : ∃ x, l = .variable x
    · obtain ⟨x, rfl⟩ := hl
      rw [argumentValue_variable h]
      cases hv : Dict.get? vars x.value with
      | none => exact absent_cases (.inr ⟨x, h, hv⟩) fun hdefault hrequired => .missingVariable h hv hdefault hrequired
      | some v =>
        dsimp only
        cases hnull : v.isNull && d.type.isNonNull with
        | true =>
          obtain ⟨hv', hrequired⟩ := Bool.and_eq_true_iff.1 hnull
          cases v with
          | null => exact .inr ⟨_, rfl, .unexpectedNull h hv hrequired⟩
          | _ => exact absurd hv' (by simp [Json.isNull])
        | false =>
          refine .inl ⟨some v, rfl, .bound h hv ?_⟩
          rintro rfl
          simpa [Json.isNull] using hnull
    · have hl : ∀ x, l ≠ .variable x := fun x heq => hl ⟨x, heq⟩
      rw [argumentValue_literal h hl]
      rcases Literal.isJudged hs vars l d.type with ⟨v, hv, hmeans⟩ | ⟨hnone, hmisfits⟩
      · exact .inl ⟨some v, by rw [hv], .literal h hl hmeans⟩
      · exact .inr ⟨_, by rw [hnone], .invalid h hl hmisfits⟩

theorem takes_of_argumentValue (hs : s.Built) {o : Option Json} (h : d.argumentValue s vars written = .ok o) :
    d.Takes s vars written o := by
  rcases d.argumentValue_cases hs vars written with ⟨o', ho, htakes⟩ | ⟨e, he, -⟩
  · exact Except.ok.inj (ho.symm.trans h) ▸ htakes
  · exact absurd (he.symm.trans h) (by simp)

theorem Refuses.argumentValue_eq (hs : s.Built) {e : ArgumentError} (h : d.Refuses s vars written e) :
    d.argumentValue s vars written = .error e := by
  cases h with
  | missing h hdefault hrequired =>
    rw [argumentValue_missing h, absentValue_eq]
    exact if_pos ⟨hdefault, hrequired⟩
  | missingVariable h hv hdefault hrequired =>
    rw [argumentValue_variable h, hv, absentValue_eq]
    exact if_pos ⟨hdefault, hrequired⟩
  | unexpectedNull h hv hrequired =>
    rw [argumentValue_variable h, hv]
    exact if_pos (by simp [Json.isNull, hrequired])
  | invalid h hl hmisfits => rw [argumentValue_literal h hl, hmisfits.valueAt?_eq hs]

/-- An argument is left out only if it has no default and nothing is there for it. -/
theorem Takes.eq_none_iff {o : Option Json} (h : d.Takes s vars written o) :
    o = none ↔ d.default = none ∧ d.IsOpen vars written := by
  cases h with
  | absent hopen => exact ⟨fun hdefault => ⟨hdefault, hopen⟩, fun h => h.1⟩
  | bound h hv =>
    refine ⟨fun h => absurd h (by simp), fun ⟨_, hopen⟩ => ?_⟩
    rcases hopen with hnone | ⟨y, hy, hmissing⟩
    · exact absurd (h.symm.trans hnone) (by simp)
    · obtain rfl := Literal.variable.inj (Option.some.inj (h.symm.trans hy))
      exact absurd (hv.symm.trans hmissing) (by simp)
  | literal h hl =>
    refine ⟨fun h => absurd h (by simp), fun ⟨_, hopen⟩ => ?_⟩
    rcases hopen with hnone | ⟨y, hy, -⟩
    · exact absurd (h.symm.trans hnone) (by simp)
    · exact absurd (Option.some.inj (h.symm.trans hy)) (hl y)

/-- An argument that must not be null is not left out. -/
theorem Takes.isSome {o : Option Json} (h : d.Takes s vars written o) (hrequired : d.type.isNonNull = true) :
    o.isSome = true := by
  cases h with
  | absent _ hnullable =>
    cases hdefault : d.default with
    | none => exact absurd (hnullable hdefault) (by simp [hrequired])
    | some default => rfl
  | bound => rfl
  | literal => rfl

end InputFieldDef

/-! ### All arguments -/

section

variable {s : Schema} {definitions : Dict InputFieldDef} {written : List Argument} {vars : Variables}

/-- The entry of an argument among those that are returned. -/
def InputFieldDef.entry (s : Schema) (vars : Variables) (written : List Argument) (d : InputFieldDef) :
    Except ArgumentError (Option (String × Json)) :=
  (d.argumentValue s vars written).map fun o => o.map (d.name, ·)

theorem argumentValues_eq : argumentValues s definitions written vars =
    ((Dict.values definitions).mapM (InputFieldDef.entry s vars written)).map fun entries =>
      entries.filterMap fun e => e := by
  have hentry : (fun d : InputFieldDef => (do
      let value ← d.argumentValue s vars written
      return value.map fun v => (d.name, v))) = InputFieldDef.entry s vars written := by
    funext d
    unfold InputFieldDef.entry
    cases d.argumentValue s vars written <;> rfl
  unfold argumentValues
  rw [hentry]
  cases (Dict.values definitions).mapM (InputFieldDef.entry s vars written) <;> rfl

/-- The entry of an argument has its name. -/
theorem InputFieldDef.entry_eq_map {d : InputFieldDef} {e : Option (String × Json)} (h : d.entry s vars written = .ok e) :
    e = (e.map Prod.snd).map (d.name, ·) := by
  unfold InputFieldDef.entry at h
  cases hvalue : d.argumentValue s vars written with
  | error e =>
    rw [hvalue] at h
    exact absurd h (by simp [Except.map])
  | ok o =>
    rw [hvalue] at h
    obtain rfl := Except.ok.inj h
    cases o <;> rfl

theorem InputFieldDef.entry_eq_ok_iff {d : InputFieldDef} {o : Option Json} :
    d.entry s vars written = .ok (o.map (d.name, ·)) ↔ d.argumentValue s vars written = .ok o := by
  have hinj : Function.Injective fun o : Option Json => o.map (d.name, ·) :=
    Option.map_injective fun v w h => (Prod.mk.inj h).2
  unfold InputFieldDef.entry
  cases d.argumentValue s vars written with
  | error e => simp [Except.map]
  | ok o' => simpa [Except.map] using hinj.eq_iff (a := o')

/-- What is returned has declared arguments in the order of their definitions, each with its value. -/
theorem argumentValues_eq_ok_iff (hnodup : ((Dict.values definitions).map InputFieldDef.name).Nodup)
    {args : ArgumentValues} : argumentValues s definitions written vars = .ok args ↔
      (Dict.keys args).Sublist ((Dict.values definitions).map InputFieldDef.name) ∧
        ∀ d ∈ Dict.values definitions, d.argumentValue s vars written = .ok (Dict.get? args d.name) := by
  have hentries : argumentValues s definitions written vars = .ok args ↔ ∃ entries : List (Option (String × Json)),
      (Dict.values definitions).map (InputFieldDef.entry s vars written) = entries.map .ok ∧
        (entries.filterMap fun e => e) = args := by
    simp only [← List.mapM_eq_ok]
    rw [argumentValues_eq]
    cases (Dict.values definitions).mapM (InputFieldDef.entry s vars written) <;> simp [Except.map]
  rw [hentries, Dict.entries_eq_iff (fun _ _ => Except.ok.inj) hnodup fun _ _ => InputFieldDef.entry_eq_map]
  exact and_congr_right fun _ => forall₂_congr fun d _ => InputFieldDef.entry_eq_ok_iff

/-- One argument is refused. -/
theorem refuses_of_argumentValues_error (hs : s.Built) {e : ArgumentError}
    (h : argumentValues s definitions written vars = .error e) :
    ∃ d ∈ Dict.values definitions, d.Refuses s vars written e := by
  rw [argumentValues_eq] at h
  cases hentries : (Dict.values definitions).mapM (InputFieldDef.entry s vars written) with
  | ok entries =>
    rw [hentries] at h
    exact absurd h (by simp [Except.map])
  | error e' =>
    rw [hentries] at h
    obtain rfl := Except.error.inj h
    obtain ⟨d, hd, hentry⟩ := List.exists_of_mapM_error hentries
    unfold InputFieldDef.entry at hentry
    rcases d.argumentValue_cases hs vars written with ⟨o, ho, -⟩ | ⟨e, he, hrefuses⟩
    · rw [ho] at hentry
      exact absurd hentry (by simp [Except.map])
    · rw [he] at hentry
      exact ⟨d, hd, Except.error.inj hentry ▸ hrefuses⟩

/-- No arguments are returned if one is refused. -/
theorem argumentValues_error_of_refuses (hs : s.Built)
    (hnodup : ((Dict.values definitions).map InputFieldDef.name).Nodup) {d : InputFieldDef}
    (hd : d ∈ Dict.values definitions) {e : ArgumentError} (h : d.Refuses s vars written e) :
    ∃ e, argumentValues s definitions written vars = .error e := by
  cases hargs : argumentValues s definitions written vars with
  | error e => exact ⟨e, rfl⟩
  | ok args =>
    have hvalue := ((argumentValues_eq_ok_iff hnodup).1 hargs).2 d hd
    exact absurd ((h.argumentValue_eq hs).symm.trans hvalue) (by simp)

/-- The value that an argument takes is of its type, unless the literal that is written for it overflows. -/
theorem InputFieldDef.Takes.isOfType_iff (hs : s.Built) {d : InputFieldDef} {v : Json}
    (h : d.Takes s vars written (some v)) (hdefault : ∀ v, d.default = some v → Json.IsOfType s v d.type)
    (hdefaults : s.DefaultsConform d.type.innermost)
    (hvars : ∀ l, d.written? written = some l → ∀ x wanted, l.Uses s d.type x wanted →
      ∀ v, Dict.get? vars x = some v → v = .null ∨ Json.IsOfType s v wanted.nullable) :
    Json.IsOfType s v d.type ↔ ∀ l, d.written? written = some l → ¬ l.Overflows s d.type := by
  have hliteral : ∀ {l}, d.written? written = some l → l.Means s vars d.type v →
      (Json.IsOfType s v d.type ↔ ∀ l, d.written? written = some l → ¬ l.Overflows s d.type) := by
    intro l hl hmeans
    constructor
    · intro htype l' hl' hover
      obtain rfl := Option.some.inj (hl.symm.trans hl')
      exact hover.not_isOfType hs hmeans htype
    · exact fun hfits => hmeans.isOfType hs hdefaults (hvars l hl) (hfits l hl)
  generalize ho : some v = o at h
  cases h with
  | absent hopen =>
    refine ⟨fun _ l hl hover => ?_, fun _ => hdefault v ho.symm⟩
    rcases hopen with hnone | ⟨x, hx, -⟩
    · exact absurd (hl.symm.trans hnone) (by simp)
    · exact hover.isPlain.2 x (Option.some.inj (hl.symm.trans hx))
  | bound h hv hnull =>
    obtain rfl := Option.some.inj ho
    exact hliteral h (.bound hv hnull)
  | literal h _ hmeans =>
    obtain rfl := Option.some.inj ho
    exact hliteral h hmeans

end

/-- **Arguments are sound.**  What is returned has declared arguments in the order of their definitions, each with the value
that it takes: that of what is written, and its default if nothing is there.  An argument is left out only if it has no
default and nothing is there for it, so one that must not be null is never left out.  A value is of the type of its argument
at every depth exactly if the literal that is written does not overflow.  Nothing is returned exactly if an argument is
refused, and the error says why. -/
theorem argumentValues_sound {s : Schema} (hs : s.Built) {definitions : Dict InputFieldDef}
    (hname : ∀ e ∈ definitions, e.2.name = e.1) (hnodup : (Dict.keys definitions).Nodup) {written : List Argument}
    {vars : Variables}
    (hdefaults : ∀ d ∈ Dict.values definitions, (∀ v, d.default = some v → Json.IsOfType s v d.type) ∧
      s.DefaultsConform d.type.innermost)
    (hvars : ∀ d ∈ Dict.values definitions, ∀ l, d.written? written = some l → ∀ x wanted, l.Uses s d.type x wanted →
      ∀ v, Dict.get? vars x = some v → v = .null ∨ Json.IsOfType s v wanted.nullable) :
    (∀ args, argumentValues s definitions written vars = .ok args →
      (Dict.keys args).Sublist (Dict.keys definitions) ∧
      ∀ d ∈ Dict.values definitions,
        d.Takes s vars written (Dict.get? args d.name) ∧
        (Dict.get? args d.name = none ↔ d.default = none ∧ d.IsOpen vars written) ∧
        (d.type.isNonNull = true → ∃ v, Dict.get? args d.name = some v ∧
          (v = .null → ∃ l, d.written? written = some l ∧ l.Overflows s d.type)) ∧
        ∀ v, Dict.get? args d.name = some v →
          (Json.IsOfType s v d.type ↔ ∀ l, d.written? written = some l → ¬ l.Overflows s d.type)) ∧
      (∀ e, argumentValues s definitions written vars = .error e →
        ∃ d ∈ Dict.values definitions, d.Refuses s vars written e) ∧
      ((∃ d ∈ Dict.values definitions, ∃ e, d.Refuses s vars written e) →
        ∃ e, argumentValues s definitions written vars = .error e) := by
  have hnames : (Dict.values definitions).map InputFieldDef.name = Dict.keys definitions := by
    rw [Dict.values, Dict.keys, List.map_map]
    exact List.map_congr_left hname
  have hnames' : ((Dict.values definitions).map InputFieldDef.name).Nodup := hnames.symm ▸ hnodup
  refine ⟨fun args hargs => ?_, fun e he => refuses_of_argumentValues_error hs he,
    fun hrefused => hrefused.elim fun d h => h.2.elim fun e he => argumentValues_error_of_refuses hs hnames' h.1 he⟩
  obtain ⟨horder, hvalues⟩ := (argumentValues_eq_ok_iff hnames').1 hargs
  refine ⟨hnames ▸ horder, fun d hd => ?_⟩
  have htake : d.Takes s vars written (Dict.get? args d.name) := d.takes_of_argumentValue hs (hvalues d hd)
  have htype : ∀ v, Dict.get? args d.name = some v →
      (Json.IsOfType s v d.type ↔ ∀ l, d.written? written = some l → ¬ l.Overflows s d.type) := fun v hv =>
    (hv ▸ htake).isOfType_iff hs (hdefaults d hd).1 (hdefaults d hd).2 (hvars d hd)
  refine ⟨htake, htake.eq_none_iff, fun hrequired => ?_, htype⟩
  obtain ⟨v, hv⟩ := Option.isSome_iff_exists.1 (htake.isSome hrequired)
  refine ⟨v, hv, fun hnull => ?_⟩
  by_contra hfits
  exact ((htype v hv).2 fun l hl hover => hfits ⟨l, hl, hover⟩).ne_null hrequired hnull

/-! ### A search -/

/-- The draft of a schema with pages and a scalar that is not built in. -/
def searchDraft : SchemaDraft :=
  .ofTypes [.inputObject pageInput, .scalar { name := "Any" }, .ofFields "Query" [("a", .named "String")]]

/-- The schema of `searchDraft`. -/
def searchSchema : Schema := ⟨"Query", none, none, searchDraft.types, searchDraft.directives⟩

theorem searchSchema_built : searchSchema.Built := by
  have hpage : (TypeDef.inputObject pageInput).Keyed := ⟨by decide, by decide⟩
  have hany : (TypeDef.scalar { name := "Any" }).Keyed := trivial
  exact ⟨searchDraft, .addType (.addType (.addType (.start (some "Query") none none) hpage) hany) trivial, rfl⟩

/-- The only input object of the schema. -/
theorem searchSchema_inputObject {name : String} {d : InputObjectDef}
    (hd : Dict.get? searchSchema.types name = some (.inputObject d)) : name = "Page" ∧ d = pageInput := by
  have htypes : searchSchema.types = (ScalarDef.builtin.map fun d => (d.name, TypeDef.scalar d)) ++
      [("Page", .inputObject pageInput), ("Any", .scalar { name := "Any" }),
        ("Query", (TypeDef.ofFields "Query" [("a", .named "String")]))] := rfl
  have hmem := Dict.mem_of_get? hd
  rw [htypes] at hmem
  simpa [TypeDef.ofFields] using hmem

theorem searchSchema_defaultsConform (name : String) : searchSchema.DefaultsConform name := by
  intro d hd f hf v hv
  obtain rfl : d = pageInput := by
    induction hd with
    | here hd => exact (searchSchema_inputObject hd).2
    | field _ _ _ ih => exact ih hf
  obtain rfl | rfl | rfl : f = _ ∨ f = _ ∨ f = _ := by
    simpa [Dict.values, pageInput] using hf
  · exact absurd hv (by simp)
  · obtain rfl := Option.some.inj hv
    have hint : ∃ d, Dict.get? searchSchema.types "Int" = some (.scalar d) := ⟨_, rfl⟩
    obtain ⟨d, hd⟩ := hint
    exact .scalar hd (by simp [Json.ofInt]) (show IntRange.int32.holds 10 = true by decide)
  · exact absurd hv (by simp)

/-- A page and anything else. -/
def searchArguments : Dict InputFieldDef :=
  [("page", { name := "page", type := .nonNull (.named "Page") }),
    ("key", { name := "key", type := .nonNull (.named "Any") })]

/-- The arguments `page: {size: $size, ids: [$id]}` and `key`. -/
def searchWritten (key : Literal) : List Argument :=
  [⟨⟨"key", .empty 0⟩, key, .empty 0⟩,
    ⟨⟨"page", .empty 0⟩, .object [(⟨"size", .empty 0⟩, .variable ⟨"size", .empty 0⟩),
      (⟨"ids", .empty 0⟩, .list [.variable ⟨"id", .empty 0⟩])], .empty 0⟩]

/-- Only the variable for an ID has a value, and it is used where an ID is wanted. -/
theorem search_uses : ∀ d ∈ Dict.values searchArguments, ∀ l, d.written? (searchWritten (.int 5)) = some l →
    ∀ x wanted, l.Uses searchSchema d.type x wanted → ∀ v, Dict.get? [("id", Json.string "7")] x = some v →
      v = .null ∨ Json.IsOfType searchSchema v wanted.nullable := by
  intro d hd l hl x wanted huses v hv
  obtain ⟨rfl, rfl⟩ : x = "id" ∧ v = .string "7" := by
    simpa [Dict.get?, eq_comm] using hv
  obtain rfl | rfl : d = _ ∨ d = _ := by simpa [Dict.values, searchArguments] using hd
  · obtain rfl := Option.some.inj hl
    have hid : ∃ d, Dict.get? searchSchema.types "ID" = some (.scalar d) := ⟨_, rfl⟩
    obtain ⟨id, hid⟩ := hid
    cases huses with
    | nonNull _ huses =>
      generalize hx : "id" = x at huses
      cases huses with
      | field hd' hf hl huses =>
        obtain ⟨-, rfl⟩ := searchSchema_inputObject hd'
        obtain rfl | rfl | rfl : _ = _ ∨ _ = _ ∨ _ = _ := by simpa [Dict.values, pageInput] using hf
        · obtain rfl := Option.some.inj hl
          cases huses with
          | nonNull _ huses =>
            cases huses with
            | single _ hitems => exact absurd rfl (hitems _)
            | item hmem huses =>
              obtain rfl := List.mem_singleton.1 hmem
              cases huses with
              | here => exact .inr (.scalar hid (by simp) trivial)
              | nonNull hl => exact absurd rfl (hl.2 _)
        · obtain rfl := Option.some.inj hl
          cases huses with
          | here => exact absurd hx (by decide)
        · exact absurd hl (by simp [Literal.field?])
  · obtain rfl := Option.some.inj hl
    cases huses with
    | nonNull _ huses => cases huses

/-- The page is of its type, with the ID that a variable stands for and the default of the size, for which there is only a
variable without a value. -/
theorem search_conforms :
    argumentValues searchSchema searchArguments (searchWritten (.int 5)) [("id", .string "7")] =
      .ok [("page", .object [("ids", .array [.string "7"]), ("size", .ofInt 10)]), ("key", .ofInt 5)] ∧
    Json.IsOfType searchSchema (.object [("ids", .array [.string "7"]), ("size", .ofInt 10)]) (.nonNull (.named "Page")) := by
  have hargs : argumentValues searchSchema searchArguments (searchWritten (.int 5)) [("id", .string "7")] =
      .ok [("page", .object [("ids", .array [.string "7"]), ("size", .ofInt 10)]), ("key", .ofInt 5)] := rfl
  have hdefaults : ∀ d ∈ Dict.values searchArguments,
      (∀ v, d.default = some v → Json.IsOfType searchSchema v d.type) ∧
        searchSchema.DefaultsConform d.type.innermost := by
    intro d hd
    have hdefault : d.default = none := by
      obtain rfl | rfl : d = _ ∨ d = _ := by simpa [Dict.values, searchArguments] using hd
      · rfl
      · rfl
    exact ⟨fun v hv => absurd (hdefault.symm.trans hv) (by simp), searchSchema_defaultsConform _⟩
  have hsound := ((argumentValues_sound searchSchema_built (by decide) (by decide) hdefaults search_uses).1 _ hargs).2
    { name := "page", type := .nonNull (.named "Page") } List.mem_cons_self
  refine ⟨hargs, (hsound.2.2.2 _ rfl).2 fun l hl hover => ?_⟩
  obtain rfl := Option.some.inj hl
  cases hover with
  | nonNull hover =>
    cases hover with
    | field hd hf hl hover =>
      obtain ⟨-, rfl⟩ := searchSchema_inputObject hd
      obtain rfl | rfl | rfl : _ = _ ∨ _ = _ ∨ _ = _ := by simpa [Dict.values, pageInput] using hf
      · obtain rfl := Option.some.inj hl
        cases hover with
        | nonNull hover =>
          cases hover with
          | single hitems => exact hitems _ rfl
          | item hmem hover => exact hover.isPlain.2 _ (List.mem_singleton.1 hmem)
      · exact hover.isPlain.2 _ (Option.some.inj hl).symm
      · exact absurd hl (by simp [Literal.field?])

/-- A number beyond the largest double is null for a scalar that is not built in, where null must not be. -/
theorem search_overflows : searchSchema.Built ∧
    argumentValues searchSchema searchArguments (searchWritten (.float (.infinity false))) [("id", .string "7")] =
      .ok [("page", .object [("ids", .array [.string "7"]), ("size", .ofInt 10)]), ("key", .null)] ∧
    ¬ Json.IsOfType searchSchema .null (.nonNull (.named "Any")) :=
  ⟨searchSchema_built, rfl, fun h => h.ne_null rfl rfl⟩

end GraphQL
