import GraphQL.Proofs.Coercion.Conformance

/-!
# What literals mean

`Literal.Means` says rule by rule what a literal stands for at a type, given the values of the variables, and
`Literal.Misfits` why it stands for nothing.  A variable without a value is no value: among the items of a list it counts
as null, and as a field of an object it counts as not written.  Every literal at every type either has exactly the value
that the rules give or is a misfit (`Literal.valueAt?_eq_some_iff`, `Literal.valueAt?_eq_none_iff`).
-/

namespace GraphQL

namespace Literal

/-- Neither a variable nor null. -/
def IsPlain (l : Literal) : Prop := l ≠ .null ∧ ∀ x, l ≠ .variable x

/-- The literal of the first field with a name. -/
def field? (fields : List (Name × Literal)) (name : String) : Option Literal :=
  (fields.find? (·.1.value = name)).map Prod.snd

/-- The literal of the first field with a name, unless it is a variable without a value. -/
def given? (vars : Variables) (fields : List (Name × Literal)) (name : String) : Option Literal :=
  (field? fields name).filter fun l => !l.isMissing vars

/-! ### The rules -/

/-- What a literal means at a scalar type.  Scalars that are not built in take any literal without variables as it is. -/
inductive MeansScalar : (typeName : String) → Literal → Json → Prop
  | int {i} (h : IntRange.int32.holds i = true) : MeansScalar "Int" (.int i) (.ofInt i)
  | float {d : Double} (h : d.isFinite = true) : MeansScalar "Float" (.float d) (.number (.double d))
  | floatOfInt (i : Int) : MeansScalar "Float" (.int i) (.number (.double (Double.ofInt i)))
  | string (text : String) : MeansScalar "String" (.string text) (.string text)
  | boolean (b : Bool) : MeansScalar "Boolean" (.bool b) (.bool b)
  | id (text : String) : MeansScalar "ID" (.string text) (.string text)
  | idOfInt (i : Int) : MeansScalar "ID" (.int i) (.string (toString i))
  | custom {typeName l v} (hname : typeName ∉ ["Int", "Float", "String", "Boolean", "ID"]) (h : l.untyped? = some v) :
      MeansScalar typeName l v

/-- What a literal means at a type, given the values of the variables. -/
inductive Means (s : Schema) (vars : Variables) : Literal → TypeRef → Json → Prop
  | bound {x t v} (hv : Dict.get? vars x.value = some v) (h : v = .null → t.isNonNull = false) :
      Means s vars (.variable x) t v
  | null {t} (h : t.isNonNull = false) : Means s vars .null t .null
  | nonNull {l t v} (hl : l.IsPlain) (h : Means s vars l t v) : Means s vars l (.nonNull t) v
  | list {items ws t} (hlength : items.length = ws.length)
      (h : ∀ (i : Nat) l w, items[i]? = some l → ws[i]? = some w → l.isMissing vars = false → Means s vars l t w)
      (hmissing : ∀ (i : Nat) l w, items[i]? = some l → ws[i]? = some w → l.isMissing vars = true →
        w = .null ∧ t.isNonNull = false) :
      Means s vars (.list items) (.list t) (.array ws)
  | single {l t v} (hl : l.IsPlain) (hitems : ∀ items, l ≠ .list items) (h : Means s vars l t v) :
      Means s vars l (.list t) (.array [v])
  | scalar {name d l v} (hd : Dict.get? s.types name = some (.scalar d)) (hl : l.IsPlain) (h : MeansScalar name l v) :
      Means s vars l (.named name) v
  | enum {name d text} (hd : Dict.get? s.types name = some (.enum d)) (h : d.hasValue text = true) :
      Means s vars (.enumValue text) (.named name) (.string text)
  | object {name d fields ws} (hd : Dict.get? s.types name = some (.inputObject d))
      (horder : (Dict.keys ws).Sublist (Dict.keys d.fields))
      (hthere : ∀ f ∈ Dict.values d.fields, ∀ l, given? vars fields f.name = some l → ∃ w, Dict.get? ws f.name = some w)
      (hread : ∀ f ∈ Dict.values d.fields, ∀ l w, given? vars fields f.name = some l → Dict.get? ws f.name = some w →
        Means s vars l f.type w)
      (hmissing : ∀ f ∈ Dict.values d.fields, given? vars fields f.name = none →
        Dict.get? ws f.name = f.default ∧ (f.default = none → f.type.isNonNull = false)) :
      Means s vars (.object fields) (.named name) (.object ws)

/-- Why a literal means nothing at a type: somewhere in it a value is wanted and there is none, or there is a literal of the
wrong shape. -/
inductive Misfits (s : Schema) (vars : Variables) : Literal → TypeRef → Prop
  | unbound {x t} (h : Dict.get? vars x.value = none) : Misfits s vars (.variable x) t
  | nullVariable {x t} (h : Dict.get? vars x.value = some .null) : Misfits s vars (.variable x) (.nonNull t)
  | null {t} : Misfits s vars .null (.nonNull t)
  | nonNull {l t} (hl : l.IsPlain) (h : Misfits s vars l t) : Misfits s vars l (.nonNull t)
  | item {items l t} (hl : l ∈ items) (hthere : l.isMissing vars = false) (h : Misfits s vars l t) :
      Misfits s vars (.list items) (.list t)
  | missingItem {items l t} (hl : l ∈ items) (hmissing : l.isMissing vars = true) (h : t.isNonNull = true) :
      Misfits s vars (.list items) (.list t)
  | single {l t} (hl : l.IsPlain) (hitems : ∀ items, l ≠ .list items) (h : Misfits s vars l t) :
      Misfits s vars l (.list t)
  | output {name l} (hl : l.IsPlain) (h : ¬ s.IsInput (.named name)) : Misfits s vars l (.named name)
  | scalar {name d l} (hd : Dict.get? s.types name = some (.scalar d)) (hl : l.IsPlain)
      (h : ∀ v, ¬ MeansScalar name l v) : Misfits s vars l (.named name)
  | enum {name d l} (hd : Dict.get? s.types name = some (.enum d)) (hl : l.IsPlain)
      (h : ∀ text, l = .enumValue text → d.hasValue text = false) : Misfits s vars l (.named name)
  | notObject {name d l} (hd : Dict.get? s.types name = some (.inputObject d)) (hl : l.IsPlain)
      (h : ∀ fields, l ≠ .object fields) : Misfits s vars l (.named name)
  | missingField {name d fields f} (hd : Dict.get? s.types name = some (.inputObject d)) (hf : f ∈ Dict.values d.fields)
      (hmissing : given? vars fields f.name = none) (hdefault : f.default = none) (hrequired : f.type.isNonNull = true) :
      Misfits s vars (.object fields) (.named name)
  | field {name d fields f l} (hd : Dict.get? s.types name = some (.inputObject d)) (hf : f ∈ Dict.values d.fields)
      (hl : given? vars fields f.name = some l) (h : Misfits s vars l f.type) : Misfits s vars (.object fields) (.named name)

end Literal

/-! ### Steps that all have an outcome -/

theorem List.mapM_eq_some {α β : Type} {f : α → Option β} {xs : List α} {ys : List β} :
    xs.mapM f = some ys ↔ xs.map f = ys.map some := by
  induction xs generalizing ys with
  | nil => cases ys <;> simp
  | cons x rest ih =>
    rw [List.mapM_cons, List.map_cons]
    cases hy : f x with
    | none => cases ys <;> simp
    | some y =>
      cases ys with
      | nil => cases rest.mapM f <;> simp
      | cons y' ys =>
        rw [List.map_cons, List.cons.injEq, ← ih]
        cases rest.mapM f <;> simp

theorem List.mapM_eq_none {α β : Type} {f : α → Option β} {xs : List α} :
    xs.mapM f = none ↔ ∃ x ∈ xs, f x = none := by
  induction xs with
  | nil => simp
  | cons x rest ih =>
    rw [List.mapM_cons]
    cases hy : f x with
    | none => simp [hy]
    | some y =>
      cases hrest : rest.mapM f with
      | none => simpa [hy] using ih.1 hrest
      | some ys => simpa [hy] using fun x hx heq => by simpa [hrest] using ih.2 ⟨x, hx, heq⟩

namespace InputObjectDef

variable {d : InputObjectDef} {read? : String → Option (TypeRef → Option Json)}

/-- What a field of an object becomes, if it is not left out. -/
def taken? (read? : String → Option (TypeRef → Option Json)) (f : InputFieldDef) : Option (Option Json) :=
  match (read? f.name).map (fun read => read f.type) with
  | some outcome => outcome.map some
  | none => if f.default = none ∧ f.type.isNonNull = true then none else some f.default

theorem entry_eq_taken? (f : InputFieldDef) :
    entry read? (fun _ => none) f = (taken? read? f).map fun v => v.map (f.name, ·) := by
  unfold entry taken?
  cases (read? f.name).map fun read => read f.type with
  | some outcome => cases outcome <;> rfl
  | none =>
    cases f.default with
    | some default => simp
    | none => cases f.type.isNonNull <;> simp

/-- The entry of a field that becomes something. -/
theorem entry_eq_some_iff {f : InputFieldDef} {v : Option Json} :
    entry read? (fun _ => none) f = some (v.map (f.name, ·)) ↔ taken? read? f = some v := by
  have hinj : Function.Injective fun v : Option Json => v.map (f.name, ·) :=
    Option.map_injective fun v w h => (Prod.mk.inj h).2
  rw [entry_eq_taken?]
  exact (Option.map_injective hinj).eq_iff (b := some v)

/-- What fields are put together to: declared fields in their order, each with what it becomes. -/
theorem assemble_eq_some (hkeyed : d.Keyed) {w : Json} :
    d.assemble read? (fun _ => none) = some w ↔ ∃ ws, w = .object ws ∧ (Dict.keys ws).Sublist (Dict.keys d.fields) ∧
      ∀ f ∈ Dict.values d.fields, taken? read? f = some (Dict.get? ws f.name) := by
  have hnodup : ((Dict.values d.fields).map InputFieldDef.name).Nodup := hkeyed.map_name.symm ▸ hkeyed.nodup
  have hentries : d.assemble read? (fun _ => none) = some w ↔ ∃ ws, w = .object ws ∧
      ∃ entries : List (Option (String × Json)), (Dict.values d.fields).map (entry read? fun _ => none) =
        entries.map some ∧ (entries.filterMap fun e => e) = ws := by
    simp only [← List.mapM_eq_some]
    rw [assemble_eq]
    cases (Dict.values d.fields).mapM (entry read? fun _ => none) <;> simp [eq_comm]
  have hname : ∀ (f : InputFieldDef) e, entry read? (fun _ => none) f = some e → e = (e.map Prod.snd).map (f.name, ·) := by
    intro f e h
    rw [entry_eq_taken?] at h
    obtain ⟨v, -, rfl⟩ := Option.map_eq_some_iff.1 h
    cases v <;> rfl
  rw [hentries]
  refine exists_congr fun ws => and_congr_right fun _ => ?_
  rw [Dict.entries_eq_iff (fun _ _ => Option.some.inj) hnodup hname, hkeyed.map_name]
  exact and_congr_right fun _ => forall₂_congr fun f _ => entry_eq_some_iff

theorem assemble_eq_none : d.assemble read? (fun _ => none) = none ↔ ∃ f ∈ Dict.values d.fields, taken? read? f = none := by
  have hentry : ∀ f, entry read? (fun _ => none) f = none ↔ taken? read? f = none := fun f => by
    rw [entry_eq_taken?, Option.map_eq_none_iff]
  rw [assemble_eq]
  simp only [← hentry, ← List.mapM_eq_none]
  cases (Dict.values d.fields).mapM (entry read? fun _ => none) <;> simp

end InputObjectDef

namespace Literal

variable {s : Schema} {vars : Variables}

/-! ### The recursion over literals and types -/

/-- What holds of a literal if it holds of what stands directly in it holds of all literals. -/
theorem rec_mem {P : Literal → Prop} (hvariable : ∀ x, P (.variable x)) (hint : ∀ i, P (.int i)) (hfloat : ∀ d, P (.float d))
    (hstring : ∀ text, P (.string text)) (hbool : ∀ b, P (.bool b)) (hnull : P .null) (henum : ∀ name, P (.enumValue name))
    (hlist : ∀ items, (∀ item ∈ items, P item) → P (.list items))
    (hobject : ∀ fields, (∀ e ∈ fields, P e.2) → P (.object fields)) : ∀ l, P l
  | .variable x => hvariable x
  | .int i => hint i
  | .float d => hfloat d
  | .string text => hstring text
  | .bool b => hbool b
  | .null => hnull
  | .enumValue name => henum name
  | .list items => hlist items fun item _ =>
      rec_mem hvariable hint hfloat hstring hbool hnull henum hlist hobject item
  | .object fields => hobject fields fun e he => by
      have : sizeOf e.2 < sizeOf fields := by
        have := List.sizeOf_lt_of_mem he
        obtain ⟨name, l⟩ := e
        simp only [Prod.mk.sizeOf_spec] at this
        dsimp only
        omega
      exact rec_mem hvariable hint hfloat hstring hbool hnull henum hlist hobject e.2

/-- What holds of a literal at a type if it holds of what is read for it holds of all literals at all types. -/
theorem rec_type {P : Literal → TypeRef → Prop} (hvariable : ∀ x t, P (.variable x) t) (hnull : ∀ t, P .null t)
    (hnonNull : ∀ l t, l.IsPlain → P l t → P l (.nonNull t))
    (hlist : ∀ items t, (∀ l ∈ items, P l t) → P (.list items) (.list t))
    (hsingle : ∀ l t, l.IsPlain → (∀ items, l ≠ .list items) → P l t → P l (.list t))
    (hnamed : ∀ l name, l.IsPlain → (∀ fields, l = .object fields → ∀ e ∈ fields, ∀ t, P e.2 t) → P l (.named name)) :
    ∀ l t, P l t := by
  -- Under a literal, all is known of what stands directly in it, at any type.
  have hstep : ∀ l, IsPlain l → (∀ items, l = .list items → ∀ x ∈ items, ∀ t, P x t) →
      (∀ fields, l = .object fields → ∀ e ∈ fields, ∀ t, P e.2 t) → ∀ t, P l t := by
    intro l hl hitems hfields t
    induction t with
    | named name => exact hnamed l name hl hfields
    | nonNull t ih => exact hnonNull l t hl ih
    | list t ih =>
      by_cases harray : ∃ items, l = .list items
      · obtain ⟨items, rfl⟩ := harray
        exact hlist items t fun x hx => hitems items rfl x hx t
      · exact hsingle l t hl (fun items heq => harray ⟨items, heq⟩) ih
  intro l
  induction l using rec_mem with
  | hvariable x => exact hvariable x
  | hnull => exact hnull
  | hlist items ih => exact hstep _ ⟨by simp, by simp⟩ (fun _ heq => list.inj heq ▸ ih) (by simp)
  | hobject fields ih => exact hstep _ ⟨by simp, by simp⟩ (by simp) (fun _ heq => object.inj heq ▸ ih)
  | _ => exact hstep _ ⟨by simp, by simp⟩ (by simp) (by simp)

theorem valueAt?_nonNull {l : Literal} (hl : l.IsPlain) (t : TypeRef) :
    l.valueAt? s vars (.nonNull t) = l.valueAt? s vars t := by
  cases l with
  | null => exact absurd rfl hl.1
  | «variable» x => exact absurd rfl (hl.2 x)
  | _ => rfl

/-- The value of an item of a list. -/
def itemAt? (s : Schema) (vars : Variables) (t : TypeRef) (l : Literal) : Option Json :=
  if l.isMissing vars then (if t.isNonNull then none else some .null) else l.valueAt? s vars t

theorem valueAt?_list (items : List Literal) (t : TypeRef) :
    (list items).valueAt? s vars (.list t) = (items.mapM (itemAt? s vars t)).map .array := by
  have hitems : itemsAt? s vars items t = items.mapM (itemAt? s vars t) := by
    induction items with
    | nil => rfl
    | cons item rest ih =>
      rw [List.mapM_cons, ← ih, itemsAt?, itemAt?]
      cases item.isMissing vars with
      | false => rfl
      | true => cases ht : t.isNonNull <;> simp [ht]
  rw [← hitems]
  rfl

theorem valueAt?_single {l : Literal} (hl : l.IsPlain) (hitems : ∀ items, l ≠ .list items) (t : TypeRef) :
    l.valueAt? s vars (.list t) = (l.valueAt? s vars t).map fun v => .array [v] := by
  have hwrap : ∀ x : Option Json, (TypeRef.list t).wrap <$> x = (t.wrap <$> x).map fun v => .array [v] := by
    intro x
    cases x <;> rfl
  cases l with
  | null => exact absurd rfl hl.1
  | «variable» x => exact absurd rfl (hl.2 x)
  | list items => exact absurd rfl (hitems items)
  | _ =>
    simp only [valueAt?, TypeRef.peel_none]
    exact hwrap _

/-- At a named type there are fields to be read only of an object. -/
theorem exists_valueAt?_named (s : Schema) (vars : Variables) {l : Literal} (hl : l.IsPlain) (name : String) :
    ∃ field?, l.valueAt? s vars (.named name) = atName? s l field? name ∧
      ((∀ fields, l ≠ .object fields) → field? = none) := by
  cases l with
  | null => exact absurd rfl hl.1
  | «variable» x => exact absurd rfl (hl.2 x)
  | object fields => exact ⟨_, rfl, fun h => absurd rfl (h fields)⟩
  | _ => exact ⟨none, rfl, fun _ => rfl⟩

theorem valueAt?_scalar (hs : s.Built) {l : Literal} (hl : l.IsPlain) {name : String} {d : ScalarDef}
    (hd : Dict.get? s.types name = some (.scalar d)) : l.valueAt? s vars (.named name) = l.atScalar? name := by
  obtain ⟨field?, heq, -⟩ := exists_valueAt?_named s vars hl name
  obtain rfl : d.name = name := (hs.keyed hd).1
  rewrite [heq, atName?, hd]
  rfl

theorem valueAt?_enum {name : String} {d : EnumDef} (hd : Dict.get? s.types name = some (.enum d)) {text : String}
    (h : d.hasValue text = true) : (enumValue text).valueAt? s vars (.named name) = some (.string text) := by
  obtain ⟨field?, heq, -⟩ := exists_valueAt?_named s vars (l := .enumValue text) ⟨by simp, by simp⟩ name
  rw [heq, atName?, hd]
  exact if_pos h

theorem valueAt?_notEnum {l : Literal} (hl : l.IsPlain) {name : String} {d : EnumDef}
    (hd : Dict.get? s.types name = some (.enum d)) (h : ∀ text, l = .enumValue text → d.hasValue text = false) :
    l.valueAt? s vars (.named name) = none := by
  obtain ⟨field?, heq, -⟩ := exists_valueAt?_named s vars hl name
  rw [heq, atName?, hd]
  cases l with
  | enumValue text => exact if_neg (by simp [h text rfl])
  | _ => rfl

theorem valueAt?_notObject {l : Literal} (hl : l.IsPlain) {name : String} {d : InputObjectDef}
    (hd : Dict.get? s.types name = some (.inputObject d)) (h : ∀ fields, l ≠ .object fields) :
    l.valueAt? s vars (.named name) = none := by
  obtain ⟨field?, heq, hnone⟩ := exists_valueAt?_named s vars hl name
  rewrite [heq, hnone h, atName?, hd]
  rfl

/-- Literals have no value at a type that is no input type. -/
theorem valueAt?_output {l : Literal} (hl : l.IsPlain) {name : String} (h : ¬ s.IsInput (.named name)) :
    l.valueAt? s vars (.named name) = none := by
  obtain ⟨field?, heq, -⟩ := exists_valueAt?_named s vars hl name
  rw [heq, atName?]
  cases htype : Dict.get? s.types name with
  | none => rfl
  | some type =>
    have hkind : type.kind.isInput = false := by
      simpa [Schema.IsInput, TypeRef.innermost, Schema.typeKind?, htype] using h
    cases type with
    | object d => rfl
    | interface d => rfl
    | union d => rfl
    | _ => exact absurd hkind (by simp [TypeDef.kind, TypeKind.isInput])

theorem valueAt?_object {name : String} {d : InputObjectDef} (hd : Dict.get? s.types name = some (.inputObject d))
    (fields : List (Name × Literal)) :
    (object fields).valueAt? s vars (.named name) = d.assemble (fieldReader? s vars fields) fun _ => none := by
  change atName? s (.object fields) (some (fieldReader? s vars fields)) name = _
  simp only [atName?, hd]
  rfl

/-- The reader of a field reads the literal that is given for it. -/
theorem fieldReader?_eq (fields : List (Name × Literal)) (name : String) :
    fieldReader? s vars fields name = (given? vars fields name).map (valueAt? s vars) := by
  induction fields with
  | nil => rfl
  | cons e rest ih =>
    obtain ⟨key, l⟩ := e
    unfold given? field? fieldReader?
    by_cases hkey : key.value = name
    · rw [if_pos hkey, List.find?_cons_of_pos (by simpa using hkey)]
      cases hmissing : l.isMissing vars <;> simp [Option.filter, hmissing]
    · rw [if_neg hkey, List.find?_cons_of_neg (by simpa using hkey)]
      exact ih

/-! ### Scalars -/

/-- A scalar takes a literal for what the rules say and refuses all others. -/
theorem atScalar?_eq_some_iff {name : String} {l : Literal} {v : Json} :
    l.atScalar? name = some v ↔ MeansScalar name l v := by
  constructor
  · intro h
    by_cases hname : name ∈ ["Int", "Float", "String", "Boolean", "ID"]
    · simp only [List.mem_cons, List.not_mem_nil, or_false] at hname
      rcases hname with rfl | rfl | rfl | rfl | rfl
      · cases l with
        | int i =>
          obtain ⟨hi, heq⟩ : IntRange.int32.holds i = true ∧ Json.ofInt i = v := by simpa [atScalar?] using h
          exact heq ▸ .int hi
        | _ => exact absurd h (by simp [atScalar?])
      · cases l with
        | int i => exact Option.some.inj h ▸ .floatOfInt i
        | float d =>
          obtain ⟨hd, heq⟩ : d.isFinite = true ∧ Json.number (.double d) = v := by
            simpa [atScalar?, Number.ofDouble?] using h
          exact heq ▸ .float hd
        | _ => exact absurd h (by simp [atScalar?])
      · cases l with
        | string text => exact Option.some.inj h ▸ .string text
        | _ => exact absurd h (by simp [atScalar?])
      · cases l with
        | bool b => exact Option.some.inj h ▸ .boolean b
        | _ => exact absurd h (by simp [atScalar?])
      · cases l with
        | string text => exact Option.some.inj h ▸ .id text
        | int i => exact Option.some.inj h ▸ .idOfInt i
        | _ => exact absurd h (by simp [atScalar?])
    · refine .custom hname ?_
      simp only [List.mem_cons, List.not_mem_nil, not_or, or_false] at hname
      obtain ⟨hint, hfloat, hstring, hboolean, hid⟩ := hname
      unfold atScalar? at h
      split at h <;> first | exact h | exact absurd rfl ‹_›
  · intro h
    cases h with
    | int h => exact if_pos h
    | float h => simp [atScalar?, Number.ofDouble?, h]
    | custom hname h =>
      simp only [List.mem_cons, List.not_mem_nil, not_or, or_false] at hname
      obtain ⟨hint, hfloat, hstring, hboolean, hid⟩ := hname
      unfold atScalar?
      split <;> first | exact h | exact absurd rfl ‹_›
    | _ => rfl

/-! ### What is read and what is not -/

/-- The literal has the value that the rules give, or it is a misfit. -/
def IsJudged (s : Schema) (vars : Variables) (l : Literal) (t : TypeRef) : Prop :=
  (∃ v, l.valueAt? s vars t = some v ∧ Means s vars l t v) ∨ l.valueAt? s vars t = none ∧ Misfits s vars l t

theorem isJudged_variable (x : Name) (t : TypeRef) : IsJudged s vars (.variable x) t := by
  unfold IsJudged valueAt?
  cases hv : Dict.get? vars x.value with
  | none => exact .inr ⟨rfl, .unbound hv⟩
  | some v =>
    cases hnull : v.isNull && t.isNonNull with
    | true =>
      obtain ⟨hv', ht⟩ := Bool.and_eq_true_iff.1 hnull
      cases t with
      | nonNull t =>
        cases v with
        | null => exact .inr ⟨rfl, .nullVariable hv⟩
        | _ => exact absurd hv' (by simp [Json.isNull])
      | _ => exact absurd ht (by simp [TypeRef.isNonNull])
    | false =>
      refine .inl ⟨v, ?_, .bound hv fun heq => ?_⟩
      · change (if v.isNull && t.isNonNull then none else some v) = some v
        rw [hnull]
        rfl
      subst heq
      simpa [Json.isNull] using hnull

theorem isJudged_null (t : TypeRef) : IsJudged s vars .null t := by
  cases t with
  | nonNull t => exact .inr ⟨rfl, .null⟩
  | named name => exact .inl ⟨_, rfl, .null rfl⟩
  | list t => exact .inl ⟨_, rfl, .null rfl⟩

theorem IsJudged.nonNull {l : Literal} {t : TypeRef} (hl : l.IsPlain) (h : IsJudged s vars l t) :
    IsJudged s vars l (.nonNull t) := by
  unfold IsJudged
  rw [valueAt?_nonNull hl]
  exact h.imp (fun ⟨v, hv, hmeans⟩ => ⟨v, hv, .nonNull hl hmeans⟩) fun ⟨hnone, hmisfits⟩ => ⟨hnone, .nonNull hl hmisfits⟩

/-- The items of a list are read one by one. -/
theorem IsJudged.list {items : List Literal} {t : TypeRef} (h : ∀ l ∈ items, IsJudged s vars l t) :
    IsJudged s vars (.list items) (.list t) := by
  unfold IsJudged
  rw [valueAt?_list]
  cases hitems : items.mapM (itemAt? s vars t) with
  | some ws =>
    have hmap := List.mapM_eq_some.1 hitems
    have hitem : ∀ (i : Nat) l w, items[i]? = some l → ws[i]? = some w → itemAt? s vars t l = some w := by
      intro i l w hl hw
      have hi := congrArg (fun values : List (Option Json) => values[i]?) hmap
      simpa [hl, hw] using hi
    refine .inl ⟨_, rfl, .list (by simpa using congrArg List.length hmap) (fun i l w hl hw hthere => ?_)
      fun i l w hl hw hmissing => ?_⟩
    · have hvalue : l.valueAt? s vars t = some w := by simpa [itemAt?, hthere] using hitem i l w hl hw
      rcases h l (List.mem_of_getElem? hl) with ⟨w', hw', hmeans⟩ | ⟨hnone, -⟩
      · exact Option.some.inj (hw'.symm.trans hvalue) ▸ hmeans
      · exact absurd (hnone.symm.trans hvalue) (by simp)
    · have hvalue := hitem i l w hl hw
      cases ht : t.isNonNull with
      | true => simp [itemAt?, hmissing, ht] at hvalue
      | false => exact ⟨by simpa [itemAt?, hmissing, ht, eq_comm] using hvalue, rfl⟩
  | none =>
    obtain ⟨l, hl, hnone⟩ := List.mapM_eq_none.1 hitems
    refine .inr ⟨rfl, ?_⟩
    cases hmissing : l.isMissing vars with
    | true =>
      refine .missingItem hl hmissing ?_
      cases ht : t.isNonNull with
      | true => rfl
      | false => simp [itemAt?, hmissing, ht] at hnone
    | false =>
      have hvalue : l.valueAt? s vars t = none := by simpa [itemAt?, hmissing] using hnone
      rcases h l hl with ⟨w, hw, -⟩ | ⟨-, hmisfits⟩
      · exact absurd (hw.symm.trans hvalue) (by simp)
      · exact .item hl hmissing hmisfits

theorem IsJudged.single {l : Literal} {t : TypeRef} (hl : l.IsPlain) (hitems : ∀ items, l ≠ .list items)
    (h : IsJudged s vars l t) : IsJudged s vars l (.list t) := by
  unfold IsJudged
  rw [valueAt?_single hl hitems]
  rcases h with ⟨v, hv, hmeans⟩ | ⟨hnone, hmisfits⟩
  · exact .inl ⟨_, by rw [hv]; rfl, .single hl hitems hmeans⟩
  · exact .inr ⟨by rw [hnone]; rfl, .single hl hitems hmisfits⟩

/-- At a named type that is no input object. -/
theorem isJudged_leaf (hs : s.Built) {name : String} {l : Literal} (hl : l.IsPlain)
    (hd : ∀ d, Dict.get? s.types name ≠ some (.inputObject d)) : IsJudged s vars l (.named name) := by
  have houtput : ¬ s.IsInput (.named name) → IsJudged s vars l (.named name) := fun h =>
    .inr ⟨valueAt?_output hl h, .output hl h⟩
  cases htype : Dict.get? s.types name with
  | none => exact houtput (by simp [Schema.IsInput, TypeRef.innermost, Schema.typeKind?, htype])
  | some type =>
    cases type with
    | scalar d =>
      unfold IsJudged
      rw [valueAt?_scalar hs hl htype]
      cases hvalue : l.atScalar? name with
      | some v => exact .inl ⟨v, rfl, .scalar htype hl (atScalar?_eq_some_iff.1 hvalue)⟩
      | none =>
        refine .inr ⟨rfl, .scalar htype hl fun v hmeans => ?_⟩
        exact absurd (hvalue.symm.trans (atScalar?_eq_some_iff.2 hmeans)) (by simp)
    | enum d =>
      by_cases hvalue : ∃ text, l = .enumValue text ∧ d.hasValue text = true
      · obtain ⟨text, rfl, htext⟩ := hvalue
        exact .inl ⟨_, valueAt?_enum htype htext, .enum htype htext⟩
      · have hnone : ∀ text, l = .enumValue text → d.hasValue text = false := fun text htext =>
          Bool.eq_false_iff.2 fun h => hvalue ⟨text, htext, h⟩
        exact .inr ⟨valueAt?_notEnum hl htype hnone, .enum htype hl hnone⟩
    | inputObject d => exact absurd htype (hd d)
    | _ => exact houtput (by simp [Schema.IsInput, TypeRef.innermost, Schema.typeKind?, htype, TypeDef.kind, TypeKind.isInput])

/-- What a field of an object becomes: the value of the literal that is given for it, else its default. -/
theorem taken?_fieldReader? (fields : List (Name × Literal)) (f : InputFieldDef) :
    InputObjectDef.taken? (fieldReader? s vars fields) f =
      match given? vars fields f.name with
      | some l => (l.valueAt? s vars f.type).map some
      | none => if f.default = none ∧ f.type.isNonNull = true then none else some f.default := by
  unfold InputObjectDef.taken?
  rw [fieldReader?_eq]
  cases given? vars fields f.name <;> rfl

theorem given?_mem {fields : List (Name × Literal)} {name : String} {l : Literal} (h : given? vars fields name = some l) :
    ∃ e ∈ fields, e.2 = l := by
  obtain ⟨hfound, -⟩ := Option.filter_eq_some_iff.1 h
  obtain ⟨e, he, heq⟩ := Option.map_eq_some_iff.1 hfound
  exact ⟨e, List.mem_of_find?_eq_some he, heq⟩

/-- An object at an input object type, if its fields are judged. -/
theorem isJudged_object (hs : s.Built) {name : String} {d : InputObjectDef}
    (hd : Dict.get? s.types name = some (.inputObject d)) {fields : List (Name × Literal)}
    (h : ∀ e ∈ fields, ∀ t, IsJudged s vars e.2 t) : IsJudged s vars (.object fields) (.named name) := by
  unfold IsJudged
  rw [valueAt?_object hd]
  cases hassemble : d.assemble (fieldReader? s vars fields) fun _ => none with
  | some w =>
    obtain ⟨ws, rfl, horder, htaken⟩ := (InputObjectDef.assemble_eq_some (hs.keyed hd).2).1 hassemble
    have hthere : ∀ f ∈ Dict.values d.fields, ∀ l, given? vars fields f.name = some l →
        ∃ w, Dict.get? ws f.name = some w ∧ l.valueAt? s vars f.type = some w := by
      intro f hf l hl
      have hf := htaken f hf
      rw [taken?_fieldReader?, hl] at hf
      obtain ⟨w, hw, heq⟩ := Option.map_eq_some_iff.1 hf
      exact ⟨w, heq.symm, hw⟩
    refine .inl ⟨_, rfl, .object hd horder (fun f hf l hl => ?_) (fun f hf l w hl hw => ?_) fun f hf hl => ?_⟩
    · obtain ⟨w, hw, -⟩ := hthere f hf l hl
      exact ⟨w, hw⟩
    · obtain ⟨w', hw', hread⟩ := hthere f hf l hl
      obtain rfl : w' = w := Option.some.inj (hw'.symm.trans hw)
      obtain ⟨e, he, rfl⟩ := given?_mem hl
      rcases h e he f.type with ⟨w'', hw'', hmeans⟩ | ⟨hnone, -⟩
      · exact Option.some.inj (hw''.symm.trans hread) ▸ hmeans
      · exact absurd (hnone.symm.trans hread) (by simp)
    · have hf := htaken f hf
      rw [taken?_fieldReader?, hl] at hf
      by_cases hrequired : f.default = none ∧ f.type.isNonNull = true
      · exact absurd hf (by simp [hrequired])
      · rw [if_neg hrequired] at hf
        exact ⟨(Option.some.inj hf).symm, fun hdefault => by simpa [hdefault] using hrequired⟩
  | none =>
    refine .inr ⟨rfl, ?_⟩
    obtain ⟨f, hf, hnone⟩ := InputObjectDef.assemble_eq_none.1 hassemble
    rw [taken?_fieldReader?] at hnone
    cases hl : given? vars fields f.name with
    | some l =>
      rw [hl] at hnone
      obtain ⟨e, he, rfl⟩ := given?_mem hl
      rcases h e he f.type with ⟨w, hw, -⟩ | ⟨-, hmisfits⟩
      · exact absurd ((Option.map_eq_none_iff.1 hnone).symm.trans hw) (by simp)
      · exact .field hd hf hl hmisfits
    | none =>
      rw [hl] at hnone
      by_cases hrequired : f.default = none ∧ f.type.isNonNull = true
      · exact .missingField hd hf hl hrequired.1 hrequired.2
      · exact absurd hnone (by simp [hrequired])

theorem isJudged (hs : s.Built) (vars : Variables) (l : Literal) (t : TypeRef) : IsJudged s vars l t := by
  induction l, t using rec_type with
  | hvariable x t => exact isJudged_variable x t
  | hnull t => exact isJudged_null t
  | hnonNull l t hl ih => exact ih.nonNull hl
  | hlist items t ih => exact .list ih
  | hsingle l t hl hitems ih => exact ih.single hl hitems
  | hnamed l name hl ih =>
    by_cases hinput : ∃ d, Dict.get? s.types name = some (.inputObject d)
    · obtain ⟨d, hd⟩ := hinput
      by_cases hobject : ∃ fields, l = .object fields
      · obtain ⟨fields, rfl⟩ := hobject
        exact isJudged_object hs hd (ih fields rfl)
      · have hfields : ∀ fields, l ≠ .object fields := fun fields heq => hobject ⟨fields, heq⟩
        exact .inr ⟨valueAt?_notObject hl hd hfields, .notObject hd hl hfields⟩
    · exact isJudged_leaf hs hl fun d hd => hinput ⟨d, hd⟩

/-! ### The rules exclude each other -/

/-- A literal has at most one meaning, and a misfit has none. -/
theorem Means.valueAt?_eq (hs : s.Built) {l : Literal} {t : TypeRef} {v : Json} (h : Means s vars l t v) :
    l.valueAt? s vars t = some v := by
  induction h with
  | @bound x t v hv h =>
    have hnull : (v.isNull && t.isNonNull) = false := by
      cases v with
      | null => exact h rfl
      | _ => rfl
    simp only [valueAt?, hv, Option.bind_some, hnull, Bool.false_eq_true, if_false]
  | null h => simp [valueAt?, h]
  | nonNull hl _ ih => exact (valueAt?_nonNull hl _).trans ih
  | @list items ws t hlength _ hmissing ih =>
    have hmap : items.map (itemAt? s vars t) = ws.map some := by
      refine List.ext_getElem (by simpa using hlength) fun i hi hi' => ?_
      simp only [List.length_map] at hi hi'
      simp only [List.getElem_map]
      have hl := List.getElem?_eq_getElem hi
      have hw := List.getElem?_eq_getElem hi'
      unfold itemAt?
      cases hitem : items[i].isMissing vars with
      | true =>
        obtain ⟨hnull, ht⟩ := hmissing i _ _ hl hw hitem
        simp [hnull, ht]
      | false => exact ih i _ _ hl hw hitem
    rw [valueAt?_list, List.mapM_eq_some.2 hmap]
    rfl
  | single hl hitems _ ih =>
    rw [valueAt?_single hl hitems, ih]
    rfl
  | scalar hd hl h => exact (valueAt?_scalar hs hl hd).trans (atScalar?_eq_some_iff.2 h)
  | enum hd h => exact valueAt?_enum hd h
  | @object name d fields ws hd horder hthere _ hmissing ih =>
    rw [valueAt?_object hd]
    refine (InputObjectDef.assemble_eq_some (hs.keyed hd).2).2 ⟨ws, rfl, horder, fun f hf => ?_⟩
    rw [taken?_fieldReader?]
    cases hl : given? vars fields f.name with
    | some l =>
      obtain ⟨w, hw⟩ := hthere f hf l hl
      simp only [ih f hf l w hl hw, hw, Option.map_some]
    | none =>
      obtain ⟨hdefault, hnullable⟩ := hmissing f hf hl
      have hrequired : ¬(f.default = none ∧ f.type.isNonNull = true) := fun h => by simp [hnullable h.1] at h
      simp only [if_neg hrequired, hdefault]

theorem Misfits.valueAt?_eq (hs : s.Built) {l : Literal} {t : TypeRef} (h : Misfits s vars l t) :
    l.valueAt? s vars t = none := by
  induction h with
  | unbound h => simp [valueAt?, h]
  | nullVariable h => simp [valueAt?, h, Json.isNull, TypeRef.isNonNull]
  | null => rfl
  | nonNull hl _ ih => exact (valueAt?_nonNull hl _).trans ih
  | @item items l t hl hthere _ ih =>
    have hitem : itemAt? s vars t l = none := by simp [itemAt?, hthere, ih]
    rw [valueAt?_list, List.mapM_eq_none.2 ⟨l, hl, hitem⟩]
    rfl
  | @missingItem items l t hl hmissing h =>
    have hitem : itemAt? s vars t l = none := by simp [itemAt?, hmissing, h]
    rw [valueAt?_list, List.mapM_eq_none.2 ⟨l, hl, hitem⟩]
    rfl
  | single hl hitems _ ih =>
    rw [valueAt?_single hl hitems, ih]
    rfl
  | output hl h => exact valueAt?_output hl h
  | scalar hd hl h =>
    rw [valueAt?_scalar hs hl hd]
    exact Option.eq_none_iff_forall_ne_some.2 fun v hv => h v (atScalar?_eq_some_iff.1 hv)
  | enum hd hl h => exact valueAt?_notEnum hl hd h
  | notObject hd hl h => exact valueAt?_notObject hl hd h
  | @missingField name d fields f hd hf hmissing hdefault hrequired =>
    rw [valueAt?_object hd]
    refine InputObjectDef.assemble_eq_none.2 ⟨f, hf, ?_⟩
    rw [taken?_fieldReader?, hmissing]
    exact if_pos ⟨hdefault, hrequired⟩
  | @field name d fields f l hd hf hl _ ih =>
    rw [valueAt?_object hd]
    refine InputObjectDef.assemble_eq_none.2 ⟨f, hf, ?_⟩
    rw [taken?_fieldReader?, hl]
    simp only [ih, Option.map_none]

theorem valueAt?_eq_some_iff (hs : s.Built) {l : Literal} {t : TypeRef} {v : Json} :
    l.valueAt? s vars t = some v ↔ Means s vars l t v := by
  refine ⟨fun h => ?_, fun h => h.valueAt?_eq hs⟩
  rcases isJudged hs vars l t with ⟨w, hw, hmeans⟩ | ⟨hnone, -⟩
  · exact Option.some.inj (hw.symm.trans h) ▸ hmeans
  · exact absurd (hnone.symm.trans h) (by simp)

theorem valueAt?_eq_none_iff (hs : s.Built) {l : Literal} {t : TypeRef} :
    l.valueAt? s vars t = none ↔ Misfits s vars l t := by
  refine ⟨fun h => ?_, fun h => h.valueAt?_eq hs⟩
  rcases isJudged hs vars l t with ⟨w, hw, -⟩ | ⟨-, hmisfits⟩
  · exact absurd (hw.symm.trans h) (by simp)
  · exact hmisfits

end Literal

end GraphQL
