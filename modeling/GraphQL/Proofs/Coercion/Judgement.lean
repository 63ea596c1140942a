import GraphQL.Proofs.Coercion.Agreement
import Mathlib.Data.List.Nodup

/-!
# How values are judged

A value that is sent for a variable is read at the type of the variable.  `Json.Reads` says rule by rule what it is read
as, with single values in lists and missing fields filled in, and `Json.Violates` what is wrong with a value that cannot be
read.  Along the recursion over values and types (`Json.rec_type`), every value is read or refused for what is wrong in it
(`Json.isJudged`).
-/

namespace GraphQL

/-- Whether arguments can have the type. -/
def Schema.IsInput (s : Schema) (type : TypeRef) : Prop := (s.typeKind? type.innermost).any TypeKind.isInput = true

namespace Json

/-! ### What is read -/

/-- What a scalar reads a value as.  Scalars that are not built in read any value as it is. -/
inductive ReadsScalar : (typeName : String) → Json → Json → Prop
  | int {i} (h : IntRange.int32.holds i = true) : ReadsScalar "Int" (.number (.int i)) (.number (.int i))
  | float (n : Number) : ReadsScalar "Float" (.number n) (.number n)
  | string (text : String) : ReadsScalar "String" (.string text) (.string text)
  | boolean (b : Bool) : ReadsScalar "Boolean" (.bool b) (.bool b)
  | id (text : String) : ReadsScalar "ID" (.string text) (.string text)
  | idOfInt (i : Int) : ReadsScalar "ID" (.number (.int i)) (.string (toString i))
  | custom {typeName} (h : typeName ∉ ["Int", "Float", "String", "Boolean", "ID"]) (v : Json) : ReadsScalar typeName v v

/-- What a value is read as at a type. -/
inductive Reads (s : Schema) : Json → TypeRef → Json → Prop
  | null {t} (h : t.isNonNull = false) : Reads s .null t .null
  | nonNull {v t w} (hv : v ≠ .null) (h : Reads s v t w) : Reads s v (.nonNull t) w
  | list {items ws t} (hlength : items.length = ws.length)
      (h : ∀ (i : Nat) v w, items[i]? = some v → ws[i]? = some w → Reads s v t w) :
      Reads s (.array items) (.list t) (.array ws)
  | single {v t w} (hv : v ≠ .null) (hitems : ∀ items, v ≠ .array items) (h : Reads s v t w) :
      Reads s v (.list t) (.array [w])
  | scalar {name d v w} (hd : Dict.get? s.types name = some (.scalar d)) (hv : v ≠ .null) (h : ReadsScalar name v w) :
      Reads s v (.named name) w
  | enum {name d text} (hd : Dict.get? s.types name = some (.enum d)) (h : d.hasValue text = true) :
      Reads s (.string text) (.named name) (.string text)
  | object {name d fields ws} (hd : Dict.get? s.types name = some (.inputObject d))
      (hknown : ∀ key ∈ Dict.keys fields, key ∈ Dict.keys d.fields)
      (horder : (Dict.keys ws).Sublist (Dict.keys d.fields))
      (hthere : ∀ f ∈ Dict.values d.fields, ∀ v, Dict.get? fields f.name = some v → ∃ w, Dict.get? ws f.name = some w)
      (hread : ∀ f ∈ Dict.values d.fields, ∀ v w, Dict.get? fields f.name = some v → Dict.get? ws f.name = some w →
        Reads s v f.type w)
      (hmissing : ∀ f ∈ Dict.values d.fields, Dict.get? fields f.name = none →
        Dict.get? ws f.name = f.default ∧ (f.default = none → f.type.isNonNull = false)) :
      Reads s (.object fields) (.named name) (.object ws)

/-- A value that the scalar has.  Scalars that are not built in have any value. -/
def IsOfScalar (typeName : String) (value : Json) : Prop :=
  match typeName, value with
  | "Int", .number (.int i) => IntRange.int32.holds i = true
  | "Int", _ => False
  | "Float", .number _ => True
  | "Float", _ => False
  | "String", .string _ => True
  | "String", _ => False
  | "Boolean", .bool _ => True
  | "Boolean", _ => False
  | "ID", .string _ => True
  | "ID", _ => False
  | _, _ => True

/-- What is wrong with a value at a type: somewhere in it is a null, a list or a leaf where none may be, a name that is not
among those of an enum, a field that is not declared, or a field is missing. -/
inductive Violates (s : Schema) : Json → TypeRef → Prop
  | null {t} : Violates s .null (.nonNull t)
  | nonNull {v t} (h : Violates s v t) : Violates s v (.nonNull t)
  | item {items v t} (hv : v ∈ items) (h : Violates s v t) : Violates s (.array items) (.list t)
  | single {v t} (hv : v ≠ .null) (hitems : ∀ items, v ≠ .array items) (h : Violates s v t) : Violates s v (.list t)
  | scalar {name d v} (hd : Dict.get? s.types name = some (.scalar d)) (hv : v ≠ .null)
      (h : ¬ v.IsOfScalar name) (hid : name = "ID" → ∀ i, v ≠ .number (.int i)) : Violates s v (.named name)
  | enum {name d v} (hd : Dict.get? s.types name = some (.enum d)) (hv : v ≠ .null)
      (h : ∀ text, v = .string text → d.hasValue text = false) : Violates s v (.named name)
  | list {name d items} (hd : Dict.get? s.types name = some (.inputObject d)) : Violates s (.array items) (.named name)
  | leaf {name d v} (hd : Dict.get? s.types name = some (.inputObject d)) (hv : v ≠ .null)
      (hitems : ∀ items, v ≠ .array items) (hfields : ∀ fields, v ≠ .object fields) : Violates s v (.named name)
  | unknownField {name d fields key} (hd : Dict.get? s.types name = some (.inputObject d))
      (hkey : key ∈ Dict.keys fields) (h : key ∉ Dict.keys d.fields) : Violates s (.object fields) (.named name)
  | missingField {name d fields f} (hd : Dict.get? s.types name = some (.inputObject d)) (hf : f ∈ Dict.values d.fields)
      (hmissing : f.name ∉ Dict.keys fields) (hdefault : f.default = none) (hrequired : f.type.isNonNull = true) :
      Violates s (.object fields) (.named name)
  | field {name d fields f v} (hd : Dict.get? s.types name = some (.inputObject d)) (hf : f ∈ Dict.values d.fields)
      (hv : Dict.get? fields f.name = some v) (h : Violates s v f.type) : Violates s (.object fields) (.named name)

end Json

/-! ### Steps that all succeed -/

/-- Steps that all succeed, with their outcomes. -/
theorem List.mapM_eq_ok {ε α β : Type} {f : α → Except ε β} {xs : List α} {ys : List β} :
    xs.mapM f = .ok ys ↔ xs.map f = ys.map .ok := by
  induction xs generalizing ys with
  | nil => cases ys <;> simp [pure, Except.pure]
  | cons x rest ih =>
    rw [List.mapM_cons, List.map_cons]
    cases hy : f x with
    | error e => cases ys <;> simp [bind, Except.bind]
    | ok y =>
      cases hrest : rest.mapM f with
      | error e =>
        have hne : ∀ zs : List β, rest.map f ≠ zs.map .ok := fun zs h => by
          rw [ih.2 h] at hrest
          exact absurd hrest (by simp)
        cases ys <;> simp [bind, Except.bind, hne]
      | ok zs =>
        have hzs := ih.1 hrest
        cases ys with
        | nil => simp [bind, Except.bind, pure, Except.pure]
        | cons y' ys =>
          have hinj : Function.Injective (Except.ok : β → Except ε β) := fun a b h => Except.ok.inj h
          simp [bind, Except.bind, pure, Except.pure, hzs, (List.map_injective_iff.2 hinj).eq_iff]

/-- Steps of which one fails. -/
theorem List.exists_of_mapM_error {ε α β : Type} {f : α → Except ε β} {xs : List α} {e : ε} (h : xs.mapM f = .error e) :
    ∃ x ∈ xs, f x = .error e := by
  induction xs with
  | nil => exact absurd h (by simp [pure, Except.pure])
  | cons x rest ih =>
    rw [List.mapM_cons] at h
    cases hx : f x with
    | error e' =>
      rw [hx] at h
      obtain rfl : e' = e := Except.error.inj h
      exact ⟨x, List.mem_cons_self, hx⟩
    | ok y =>
      cases hrest : rest.mapM f with
      | error e' =>
        rw [hx, hrest] at h
        obtain rfl : e' = e := Except.error.inj h
        obtain ⟨x', hmem, hx'⟩ := ih hrest
        exact ⟨x', List.mem_cons_of_mem _ hmem, hx'⟩
      | ok ys =>
        rw [hx, hrest] at h
        exact absurd h (by simp [bind, Except.bind, pure, Except.pure])

/-! ### Picked fields -/

namespace Dict

variable {α β : Type}

theorem get?_eq_none {d : Dict α} {key : String} : get? d key = none ↔ key ∉ keys d := by
  rw [← contains_iff, contains]
  cases get? d key <;> simp

theorem keys_filterMap_sublist (xs : List β) (name : β → String) (g : β → Option α) :
    (keys (xs.filterMap fun x => (g x).map (name x, ·))).Sublist (xs.map name) := by
  induction xs with
  | nil => exact List.Sublist.refl _
  | cons x rest ih =>
    cases hg : g x with
    | none =>
      rw [List.filterMap_cons_none (by rw [hg]; rfl)]
      exact ih.cons _
    | some v =>
      rw [List.filterMap_cons_some (b := (name x, v)) (by rw [hg]; rfl)]
      exact ih.cons_cons _

/-- Values that are picked for the keys of a list are found under their keys. -/
theorem get?_filterMap {xs : List β} {name : β → String} (hnodup : (xs.map name).Nodup) (g : β → Option α) :
    ∀ x ∈ xs, get? (xs.filterMap fun x => (g x).map (name x, ·)) (name x) = g x := by
  intro x hx
  cases hg : g x with
  | some v =>
    have hmem : (name x, v) ∈ xs.filterMap fun x => (g x).map (name x, ·) :=
      List.mem_filterMap.2 ⟨x, hx, by rw [hg]; rfl⟩
    exact get?_of_mem (hnodup.sublist (keys_filterMap_sublist xs name g)) hmem
  | none =>
    refine get?_eq_none.2 fun hmem => ?_
    obtain ⟨e, he, hname⟩ := List.mem_map.1 hmem
    obtain ⟨y, hy, hpicked⟩ := List.mem_filterMap.1 he
    obtain ⟨v, hv, rfl⟩ := Option.map_eq_some_iff.1 hpicked
    obtain rfl := List.inj_on_of_nodup_map hnodup hy hx hname
    exact absurd (hg.symm.trans hv) (by simp)

/-- A dictionary with keys of a list, in its order, is what is picked from it for the keys of the list. -/
theorem filterMap_get? {xs : List β} {name : β → String} (hnodup : (xs.map name).Nodup) {d : Dict α}
    (h : (keys d).Sublist (xs.map name)) : (xs.filterMap fun x => (get? d (name x)).map (name x, ·)) = d := by
  induction xs generalizing d with
  | nil =>
    cases d with
    | nil => rfl
    | cons e rest => exact absurd (h.subset List.mem_cons_self) (by simp)
  | cons x xs ih =>
    obtain ⟨hx, hxs⟩ := List.nodup_cons.1 hnodup
    rcases List.sublist_cons_iff.1 h with hrest | ⟨rest, hkeys, hrest⟩
    · have hmissing : get? d (name x) = none := get?_eq_none.2 fun hmem => hx (hrest.subset hmem)
      rw [List.filterMap_cons_none (by rw [hmissing]; rfl)]
      exact ih hxs hrest
    · cases d with
      | nil => exact absurd hkeys (by simp [keys])
      | cons e d =>
        obtain ⟨key, v⟩ := e
        obtain ⟨rfl, rfl⟩ : key = name x ∧ keys d = rest := List.cons.inj hkeys
        have hother : ∀ y ∈ xs, get? ((name x, v) :: d) (name y) = get? d (name y) := fun y hy =>
          if_neg fun heq => hx (List.mem_map.2 ⟨y, hy, heq.symm⟩)
        rw [List.filterMap_cons_some (b := (name x, v)) (by simp [get?]),
          List.filterMap_congr fun y hy => by rw [hother y hy], ih hxs hrest]

/-- Outcomes for the elements of a list, each of them nothing or an entry under the name of the element.  The entries are
those of a dictionary exactly if it has names of the list in their order, and the outcome for each element is what is found
under its name. -/
theorem entries_eq_iff {γ : Type} {outcome : Option (String × α) → γ} (houtcome : Function.Injective outcome)
    {xs : List β} {name : β → String} (hnodup : (xs.map name).Nodup) {f : β → γ}
    (hname : ∀ x e, f x = outcome e → e = (e.map Prod.snd).map (name x, ·)) {d : Dict α} :
    (∃ entries : List (Option (String × α)), xs.map f = entries.map outcome ∧ (entries.filterMap fun e => e) = d) ↔
      (keys d).Sublist (xs.map name) ∧ ∀ x ∈ xs, f x = outcome ((get? d (name x)).map (name x, ·)) := by
  constructor
  · rintro ⟨entries, hmap, rfl⟩
    have hpicked : ∀ x, ∃ v : Option α, x ∈ xs → f x = outcome (v.map (name x, ·)) := by
      intro x
      by_cases hx : x ∈ xs
      · have hmem : f x ∈ entries.map outcome := hmap ▸ List.mem_map_of_mem hx
        obtain ⟨e, -, he⟩ := List.mem_map.1 hmem
        exact ⟨e.map Prod.snd, fun _ => hname x e he.symm ▸ he.symm⟩
      · exact ⟨none, fun h => absurd h hx⟩
    choose picked hpicked using hpicked
    have hall : entries = xs.map fun x => (picked x).map (name x, ·) := by
      refine List.map_injective_iff.2 houtcome (hmap.symm.trans ?_)
      rw [List.map_map]
      exact List.map_congr_left hpicked
    have hws : (entries.filterMap fun e => e) = xs.filterMap fun x => (picked x).map (name x, ·) := by
      rw [hall, List.filterMap_map]
      rfl
    rw [hws]
    refine ⟨keys_filterMap_sublist xs name picked, fun x hx => ?_⟩
    rw [get?_filterMap hnodup picked x hx]
    exact hpicked x hx
  · rintro ⟨horder, hfound⟩
    refine ⟨xs.map fun x => (get? d (name x)).map (name x, ·), ?_, ?_⟩
    · rw [List.map_map]
      exact List.map_congr_left hfound
    · rw [List.filterMap_map]
      exact filterMap_get? hnodup horder

end Dict

namespace InputObjectDef

variable {d : InputObjectDef} {read? : String → Option (TypeRef → Except CoercionError Json)}
  {missing : InputFieldDef → Except CoercionError Json}

theorem Keyed.map_name (h : d.Keyed) : (Dict.values d.fields).map InputFieldDef.name = Dict.keys d.fields := by
  rw [Dict.values, Dict.keys, List.map_map]
  exact List.map_congr_left h.name

/-- The entry of a field has its name. -/
theorem entry_eq_map {field : InputFieldDef} {e : Option (String × Json)} (h : entry read? missing field = .ok e) :
    e = (e.map Prod.snd).map (field.name, ·) := by
  unfold entry at h
  cases hread : (read? field.name).map fun read => read field.type with
  | some outcome =>
    rw [hread] at h
    cases outcome with
    | error x => exact absurd h (by simp [bind, Except.bind])
    | ok v => exact (Except.ok.inj h) ▸ rfl
  | none =>
    rw [hread] at h
    cases hdefault : field.default with
    | some default =>
      rw [hdefault] at h
      exact (Except.ok.inj h) ▸ rfl
    | none =>
      rw [hdefault] at h
      dsimp only at h
      split at h
      · cases hmissing : missing field with
        | error x =>
          rw [hmissing] at h
          exact absurd h (by simp [bind, Except.bind])
        | ok v =>
          rw [hmissing] at h
          exact (Except.ok.inj h) ▸ rfl
      · exact (Except.ok.inj h) ▸ rfl

/-- What fields are put together to: an object with declared fields in their order, each with the value of its entry. -/
theorem assemble_eq_ok (hkeyed : d.Keyed) {w : Json} :
    d.assemble read? missing = .ok w ↔ ∃ ws, w = .object ws ∧ (Dict.keys ws).Sublist (Dict.keys d.fields) ∧
      ∀ f ∈ Dict.values d.fields, entry read? missing f = .ok ((Dict.get? ws f.name).map (f.name, ·)) := by
  have hnodup : ((Dict.values d.fields).map InputFieldDef.name).Nodup := hkeyed.map_name.symm ▸ hkeyed.nodup
  have hentries : d.assemble read? missing = .ok w ↔ ∃ ws, w = .object ws ∧
      ∃ entries : List (Option (String × Json)), (Dict.values d.fields).map (entry read? missing) = entries.map .ok ∧
        (entries.filterMap fun e => e) = ws := by
    simp only [← List.mapM_eq_ok]
    rw [assemble_eq]
    cases (Dict.values d.fields).mapM (entry read? missing) <;>
      simp [bind, Except.bind, pure, Except.pure, eq_comm]
  rw [hentries]
  refine exists_congr fun ws => and_congr_right fun _ => ?_
  rw [Dict.entries_eq_iff (fun _ _ => Except.ok.inj) hnodup fun _ _ => entry_eq_map, hkeyed.map_name]

/-- Fields that cannot be put together: the entry of one fails. -/
theorem exists_of_assemble_error {e : CoercionError} (h : d.assemble read? missing = .error e) :
    ∃ f ∈ Dict.values d.fields, entry read? missing f = .error e := by
  rw [assemble_eq] at h
  cases hentries : (Dict.values d.fields).mapM (entry read? missing) with
  | error e' =>
    rw [hentries] at h
    obtain rfl : e' = e := Except.error.inj h
    exact List.exists_of_mapM_error hentries
  | ok entries =>
    rw [hentries] at h
    exact absurd h (by simp [bind, Except.bind, pure, Except.pure])

end InputObjectDef

namespace Json

variable {s : Schema}

/-! ### The recursion over values and types -/

/-- What holds of a value at a type if it holds of what is read for it holds of all values at all types. -/
theorem rec_type {P : Json → TypeRef → Prop} (hnull : ∀ t, P .null t)
    (hnonNull : ∀ v t, v ≠ .null → P v t → P v (.nonNull t))
    (hlist : ∀ items t, (∀ v ∈ items, P v t) → P (.array items) (.list t))
    (hsingle : ∀ v t, v ≠ .null → (∀ items, v ≠ .array items) → P v t → P v (.list t))
    (hnamed : ∀ v name, v ≠ .null → (∀ fields, v = .object fields → ∀ e ∈ fields, ∀ t, P e.2 t) → P v (.named name)) :
    ∀ v t, P v t := by
  -- Under a value, all is known of what stands directly in it, at any type.
  have hstep : ∀ v, v ≠ .null → (∀ items, v = .array items → ∀ x ∈ items, ∀ t, P x t) →
      (∀ fields, v = .object fields → ∀ e ∈ fields, ∀ t, P e.2 t) → ∀ t, P v t := by
    intro v hv hitems hfields t
    induction t with
    | named name => exact hnamed v name hv hfields
    | nonNull t ih => exact hnonNull v t hv ih
    | list t ih =>
      by_cases harray : ∃ items, v = .array items
      · obtain ⟨items, rfl⟩ := harray
        exact hlist items t fun x hx => hitems items rfl x hx t
      · exact hsingle v t hv (fun items heq => harray ⟨items, heq⟩) ih
  intro v
  induction v using rec_mem with
  | hnull => exact hnull
  | hbool b => exact hstep _ (by simp) (by simp) (by simp)
  | hnumber n => exact hstep _ (by simp) (by simp) (by simp)
  | hstring text => exact hstep _ (by simp) (by simp) (by simp)
  | harray items ih => exact hstep _ (by simp) (fun _ heq => array.inj heq ▸ ih) (by simp)
  | hobject fields ih => exact hstep _ (by simp) (by simp) (fun _ heq => object.inj heq ▸ ih)

theorem coerce_null {t : TypeRef} (h : t.isNonNull = false) : coerce s .null t = .ok .null := by
  change (if t.isNonNull then _ else _) = _
  rw [h]
  rfl

theorem coerce_null_nonNull (t : TypeRef) : coerce s .null (.nonNull t) = .error (.unexpectedNull (.nonNull t)) := rfl

theorem coerce_nonNull {v : Json} (hv : v ≠ .null) (t : TypeRef) : coerce s v (.nonNull t) = coerce s v t := by
  cases v with
  | null => exact absurd rfl hv
  | _ => rfl

theorem coerce_list (items : List Json) (t : TypeRef) :
    coerce s (.array items) (.list t) = (items.mapM (coerce s · t)).map .array := by
  rw [← coerceItems_eq_mapM]
  rfl

theorem coerce_single {v : Json} (hv : v ≠ .null) (hitems : ∀ items, v ≠ .array items) (t : TypeRef) :
    coerce s v (.list t) = (coerce s v t).map fun w => .array [w] := by
  have hwrap : ∀ x : Except CoercionError Json,
      (TypeRef.list t).wrap <$> x = (t.wrap <$> x).map fun w => .array [w] := by
    intro x
    cases x <;> rfl
  cases v with
  | null => exact absurd rfl hv
  | array items => exact absurd rfl (hitems items)
  | _ =>
    simp only [coerce, TypeRef.peel_none]
    exact hwrap _

/-- At a named type the fields of an object are read by their names. -/
theorem exists_coerce_named {v : Json} (hv : v ≠ .null) (name : String) :
    ∃ field?, coerce s v (.named name) = atName s v field? name ∧
      ∀ fields, v = .object fields → field? = fieldReader? s fields := by
  cases v with
  | null => exact absurd rfl hv
  | object fields => exact ⟨_, rfl, fun _ heq => object.inj heq ▸ rfl⟩
  | _ => exact ⟨fun _ => none, rfl, fun _ heq => absurd heq (by simp)⟩

theorem coerce_scalar {name : String} {d : ScalarDef} (hd : Dict.get? s.types name = some (.scalar d)) {v : Json}
    (hv : v ≠ .null) : coerce s v (.named name) = atScalar name v := by
  obtain ⟨field?, heq, -⟩ := exists_coerce_named (s := s) hv name
  rw [heq, atName, hd]

theorem coerce_enum {name : String} {d : EnumDef} (hd : Dict.get? s.types name = some (.enum d)) {text : String}
    (h : d.hasValue text = true) : coerce s (.string text) (.named name) = .ok (.string text) := by
  change atName s (.string text) (fun _ => none) name = _
  simp only [atName, hd, h, if_true]

theorem coerce_object {name : String} {d : InputObjectDef} (hd : Dict.get? s.types name = some (.inputObject d))
    {fields : List (String × Json)} (hknown : ∀ key ∈ Dict.keys fields, key ∈ Dict.keys d.fields) :
    coerce s (.object fields) (.named name) =
      d.assemble (fieldReader? s fields) fun missing => .error (.missingField missing.name missing.type) := by
  have hfind : (Dict.keys fields).find? (fun key => !Dict.contains d.fields key) = none :=
    List.find?_eq_none.2 fun key hkey => by simpa using Dict.contains_iff.2 (hknown key hkey)
  change atName s (.object fields) (fieldReader? s fields) name = _
  simp only [atName, hd, hfind]

/-! ### Scalars -/

/-- What a scalar reads, it takes. -/
theorem ReadsScalar.atScalar_eq {name : String} {v w : Json} (h : ReadsScalar name v w) : atScalar name v = .ok w := by
  cases h with
  | @int i h =>
    simp only [atScalar, Number.toInt64?, IntRange.int64_holds_of_int32 h, if_true, h]
    rfl
  | float n => rfl
  | string text => rfl
  | boolean b => rfl
  | id text => rfl
  | idOfInt i => rfl
  | custom h =>
    simp only [List.mem_cons, List.not_mem_nil, not_or, or_false] at h
    obtain ⟨hint, hfloat, hstring, hboolean, hid⟩ := h
    unfold atScalar
    split <;> first | rfl | exact absurd rfl ‹_›

/-- What a scalar does not read, it refuses, and then it is none of its values and no number that could be an ID. -/
theorem atScalar_cases (name : String) (v : Json) :
    (∃ w, ReadsScalar name v w) ∨
      ((∃ e, atScalar name v = .error e) ∧ ¬ v.IsOfScalar name ∧ (name = "ID" → ∀ i, v ≠ .number (.int i))) := by
  by_cases hbuiltin : name ∈ ["Int", "Float", "String", "Boolean", "ID"]
  · simp only [List.mem_cons, List.not_mem_nil, or_false] at hbuiltin
    rcases hbuiltin with rfl | rfl | rfl | rfl | rfl
    · cases v with
      | number n =>
        cases n with
        | int i =>
          by_cases h : IntRange.int32.holds i = true
          · exact .inl ⟨_, .int h⟩
          · refine .inr ⟨?_, h, by simp⟩
            simp only [atScalar, Number.toInt64?]
            cases IntRange.int64.holds i with
            | true => exact ⟨_, if_neg h⟩
            | false => exact ⟨_, rfl⟩
        | double d => exact .inr ⟨⟨_, rfl⟩, fun h => h, by simp⟩
      | _ => exact .inr ⟨⟨_, rfl⟩, fun h => h, by simp⟩
    · cases v with
      | number n => exact .inl ⟨_, .float n⟩
      | _ => exact .inr ⟨⟨_, rfl⟩, fun h => h, by simp⟩
    · cases v with
      | string text => exact .inl ⟨_, .string text⟩
      | _ => exact .inr ⟨⟨_, rfl⟩, fun h => h, by simp⟩
    · cases v with
      | bool b => exact .inl ⟨_, .boolean b⟩
      | _ => exact .inr ⟨⟨_, rfl⟩, fun h => h, by simp⟩
    · cases v with
      | string text => exact .inl ⟨_, .id text⟩
      | number n =>
        cases n with
        | int i => exact .inl ⟨_, .idOfInt i⟩
        | double d => exact .inr ⟨⟨_, rfl⟩, fun h => h, by simp⟩
      | _ => exact .inr ⟨⟨_, rfl⟩, fun h => h, by simp⟩
  · exact .inl ⟨v, .custom hbuiltin v⟩

/-- What a scalar reads a value as, it reads as itself. -/
theorem ReadsScalar.again {name : String} {v w : Json} (h : ReadsScalar name v w) : ReadsScalar name w w := by
  cases h with
  | int h => exact .int h
  | float n => exact .float n
  | string text => exact .string text
  | boolean b => exact .boolean b
  | id text => exact .id text
  | idOfInt i => exact .id _
  | custom h => exact .custom h v

/-- What a scalar reads a value as, it has. -/
theorem ReadsScalar.isOfScalar {name : String} {v w : Json} (h : ReadsScalar name v w) : w.IsOfScalar name := by
  cases h with
  | int h => exact h
  | custom h =>
    simp only [List.mem_cons, List.not_mem_nil, not_or, or_false] at h
    obtain ⟨hint, hfloat, hstring, hboolean, hid⟩ := h
    unfold IsOfScalar
    split <;> trivial
  | _ => trivial

/-- Only a null is read as null. -/
theorem ReadsScalar.ne_null {name : String} {v w : Json} (hv : v ≠ .null) (h : ReadsScalar name v w) : w ≠ .null := by
  cases h with
  | custom => exact hv
  | _ => simp

theorem Reads.ne_null {v w : Json} {t : TypeRef} (hv : v ≠ .null) (h : Reads s v t w) : w ≠ .null := by
  induction h with
  | null => exact absurd rfl hv
  | nonNull _ _ ih => exact ih hv
  | scalar _ _ h => exact h.ne_null hv
  | _ => simp

/-! ### What is read and what is refused -/

/-- The value is read as what it is coerced to, or it is refused, with something wrong in it or at a type that arguments
cannot have. -/
def IsJudged (s : Schema) (v : Json) (t : TypeRef) : Prop :=
  (∃ w, coerce s v t = .ok w ∧ Reads s v t w) ∨
    ∃ e, coerce s v t = .error e ∧ (Violates s v t ∨ ¬ s.IsInput t ∧ e = .notInputType t.innermost)

theorem isJudged_null (t : TypeRef) : IsJudged s .null t := by
  cases t with
  | nonNull t => exact .inr ⟨_, coerce_null_nonNull t, .inl .null⟩
  | named name => exact .inl ⟨_, coerce_null rfl, .null rfl⟩
  | list t => exact .inl ⟨_, coerce_null rfl, .null rfl⟩

theorem IsJudged.nonNull {v : Json} {t : TypeRef} (hv : v ≠ .null) (h : IsJudged s v t) : IsJudged s v (.nonNull t) := by
  unfold IsJudged
  rw [coerce_nonNull hv]
  exact h.imp (fun ⟨w, hw, hreads⟩ => ⟨w, hw, .nonNull hv hreads⟩)
    fun ⟨e, he, hwrong⟩ => ⟨e, he, hwrong.imp_left .nonNull⟩

theorem IsJudged.list {items : List Json} {t : TypeRef} (h : ∀ v ∈ items, IsJudged s v t) :
    IsJudged s (.array items) (.list t) := by
  unfold IsJudged
  rw [coerce_list]
  cases hitems : items.mapM (coerce s · t) with
  | ok ws =>
    have hmap := List.mapM_eq_ok.1 hitems
    refine .inl ⟨_, rfl, .list (by simpa using congrArg List.length hmap) fun i v w hv hw => ?_⟩
    have hcoerce : coerce s v t = .ok w := by
      have hi := congrArg (fun outcomes : List (Except CoercionError Json) => outcomes[i]?) hmap
      simpa [hv, hw] using hi
    rcases h v (List.mem_of_getElem? hv) with ⟨w', hw', hreads⟩ | ⟨e, he, -⟩
    · exact Except.ok.inj (hw'.symm.trans hcoerce) ▸ hreads
    · exact absurd (he.symm.trans hcoerce) (by simp)
  | error e =>
    obtain ⟨v, hv, hcoerce⟩ := List.exists_of_mapM_error hitems
    refine .inr ⟨e, rfl, ?_⟩
    rcases h v hv with ⟨w, hw, -⟩ | ⟨e', he', hwrong⟩
    · exact absurd (hw.symm.trans hcoerce) (by simp)
    · obtain rfl := Except.error.inj (he'.symm.trans hcoerce)
      exact hwrong.imp_left (.item hv)

theorem IsJudged.single {v : Json} {t : TypeRef} (hv : v ≠ .null) (hitems : ∀ items, v ≠ .array items)
    (h : IsJudged s v t) : IsJudged s v (.list t) := by
  unfold IsJudged
  rw [coerce_single hv hitems]
  rcases h with ⟨w, hw, hreads⟩ | ⟨e, he, hwrong⟩
  · exact .inl ⟨_, by rw [hw]; rfl, .single hv hitems hreads⟩
  · exact .inr ⟨e, by rw [he]; rfl, hwrong.imp_left (.single hv hitems)⟩

/-- At a named type that is no input object. -/
theorem isJudged_leaf {name : String} {v : Json} (hv : v ≠ .null)
    (hd : ∀ d, Dict.get? s.types name ≠ some (.inputObject d)) : IsJudged s v (.named name) := by
  obtain ⟨field?, heq, -⟩ := exists_coerce_named (s := s) hv name
  cases htype : Dict.get? s.types name with
  | none =>
    refine .inr ⟨.notInputType name, by rw [heq, atName, htype], .inr ⟨?_, rfl⟩⟩
    simp [Schema.IsInput, TypeRef.innermost, Schema.typeKind?, htype]
  | some type =>
    cases type with
    | scalar d =>
      unfold IsJudged
      rw [coerce_scalar htype hv]
      rcases atScalar_cases name v with ⟨w, hw⟩ | ⟨⟨e, he⟩, hnot, hid⟩
      · exact .inl ⟨w, hw.atScalar_eq, .scalar htype hv hw⟩
      · exact .inr ⟨e, he, .inl (.scalar htype hv hnot hid)⟩
    | enum d =>
      by_cases hvalue : ∃ text, v = .string text ∧ d.hasValue text = true
      · obtain ⟨text, rfl, htext⟩ := hvalue
        exact .inl ⟨_, coerce_enum htype htext, .enum htype htext⟩
      · have hnone : ∀ text, v = .string text → d.hasValue text = false := fun text htext =>
          Bool.eq_false_iff.2 fun h => hvalue ⟨text, htext, h⟩
        refine .inr ⟨.notEnumValue v name, ?_, .inl (.enum htype hv hnone)⟩
        rw [heq, atName, htype]
        cases v with
        | string text => exact if_neg (by simp [hnone text rfl])
        | _ => rfl
    | inputObject d => exact absurd htype (hd d)
    | _ =>
      refine .inr ⟨.notInputType name, by rw [heq, atName, htype], .inr ⟨?_, rfl⟩⟩
      simp [Schema.IsInput, TypeRef.innermost, Schema.typeKind?, htype, TypeDef.kind, TypeKind.isInput]

/-- What is no object is refused at an input object. -/
theorem isJudged_notObject {name : String} {d : InputObjectDef} (hd : Dict.get? s.types name = some (.inputObject d))
    {v : Json} (hv : v ≠ .null) (hfields : ∀ fields, v ≠ .object fields) : IsJudged s v (.named name) := by
  obtain ⟨field?, heq, -⟩ := exists_coerce_named (s := s) hv name
  have hrefused : coerce s v (.named name) = .error (.notObject name) := by
    rw [heq, atName, hd]
    cases v with
    | object fields => exact absurd rfl (hfields fields)
    | _ => rfl
  refine .inr ⟨_, hrefused, .inl ?_⟩
  by_cases hitems : ∃ items, v = .array items
  · obtain ⟨items, rfl⟩ := hitems
    exact .list hd
  · exact .leaf hd hv (fun items heq => hitems ⟨items, heq⟩) hfields

/-- The entry of a field that is there. -/
theorem entry_of_some {fields : List (String × Json)} {missing : InputFieldDef → Except CoercionError Json}
    {f : InputFieldDef} {v : Json} (hv : Dict.get? fields f.name = some v) :
    InputObjectDef.entry (fieldReader? s fields) missing f = (coerce s v f.type).map fun w => some (f.name, w) := by
  unfold InputObjectDef.entry
  rw [fieldReader?_eq, hv]
  simp only [Option.map_some]
  cases coerce s v f.type <;> rfl

/-- The entry of a field that is not there. -/
theorem entry_of_none {fields : List (String × Json)} {missing : InputFieldDef → CoercionError} {f : InputFieldDef}
    (hv : Dict.get? fields f.name = none) :
    InputObjectDef.entry (fieldReader? s fields) (fun f => .error (missing f)) f =
      if f.default = none ∧ f.type.isNonNull = true then .error (missing f)
      else .ok (f.default.map (f.name, ·)) := by
  unfold InputObjectDef.entry
  rw [fieldReader?_eq, hv]
  cases f.default with
  | some default => rfl
  | none => cases f.type.isNonNull <;> rfl

/-- An object at an input object type, if its fields are judged. -/
theorem isJudged_object (hs : s.Built) {name : String} {d : InputObjectDef}
    (hd : Dict.get? s.types name = some (.inputObject d)) {fields : List (String × Json)}
    (h : ∀ e ∈ fields, ∀ t, IsJudged s e.2 t) : IsJudged s (.object fields) (.named name) := by
  by_cases hknown : ∀ key ∈ Dict.keys fields, key ∈ Dict.keys d.fields
  · unfold IsJudged
    rw [coerce_object hd hknown]
    cases hassemble : d.assemble (fieldReader? s fields) fun missing => .error (.missingField missing.name missing.type) with
    | ok w =>
      obtain ⟨ws, rfl, horder, hentry⟩ := (InputObjectDef.assemble_eq_ok (hs.keyed hd).2).1 hassemble
      have hthere : ∀ f ∈ Dict.values d.fields, ∀ v, Dict.get? fields f.name = some v →
          ∃ w, Dict.get? ws f.name = some w ∧ coerce s v f.type = .ok w := by
        intro f hf v hv
        have hf := hentry f hf
        rw [entry_of_some hv] at hf
        cases hw : coerce s v f.type with
        | error e =>
          rw [hw] at hf
          exact absurd hf (by simp [Except.map])
        | ok w =>
          rw [hw] at hf
          obtain ⟨w', hw', heq⟩ := Option.map_eq_some_iff.1 (Except.ok.inj hf).symm
          exact ⟨w, hw'.trans (congrArg some (Prod.mk.inj heq).2), rfl⟩
      refine .inl ⟨_, rfl, .object hd hknown horder (fun f hf v hv => ?_) (fun f hf v w hv hw => ?_) fun f hf hv => ?_⟩
      · obtain ⟨w, hw, -⟩ := hthere f hf v hv
        exact ⟨w, hw⟩
      · obtain ⟨w', hw', hcoerce⟩ := hthere f hf v hv
        obtain rfl : w' = w := Option.some.inj (hw'.symm.trans hw)
        rcases h _ (Dict.mem_of_get? hv) f.type with ⟨w'', hw'', hreads⟩ | ⟨e, he, -⟩
        · exact Except.ok.inj (hw''.symm.trans hcoerce) ▸ hreads
        · exact absurd (he.symm.trans hcoerce) (by simp)
      · have hf := hentry f hf
        rw [entry_of_none hv] at hf
        split at hf
        · exact absurd hf (by simp)
        · rename_i hgiven
          have hinj : Function.Injective fun v : Json => (f.name, v) := fun v w h => (Prod.mk.inj h).2
          exact ⟨(Option.map_injective hinj (Except.ok.inj hf)).symm, fun hnone => by simpa [hnone] using hgiven⟩
    | error e =>
      refine .inr ⟨e, rfl, .inl ?_⟩
      obtain ⟨f, hf, hentry⟩ := InputObjectDef.exists_of_assemble_error hassemble
      cases hv : Dict.get? fields f.name with
      | some v =>
        rw [entry_of_some hv] at hentry
        rcases h _ (Dict.mem_of_get? hv) f.type with ⟨w, hw, -⟩ | ⟨e', he', hwrong | ⟨hnot, -⟩⟩
        · exact absurd (hw ▸ hentry) (by simp [Except.map])
        · exact .field hd hf hv hwrong
        · exact absurd (hs.isInput hd hf) hnot
      | none =>
        rw [entry_of_none hv] at hentry
        split at hentry
        · rename_i hrequired
          exact .missingField hd hf (Dict.get?_eq_none.1 hv) hrequired.1 hrequired.2
        · exact absurd hentry (by simp)
  · obtain ⟨key, hkey, hunknown⟩ : ∃ key ∈ Dict.keys fields, key ∉ Dict.keys d.fields := by
      simpa using hknown
    have hfind : ∃ unknown, (Dict.keys fields).find? (fun key => !Dict.contains d.fields key) = some unknown := by
      refine Option.isSome_iff_exists.1 (List.find?_isSome.2 ⟨key, hkey, ?_⟩)
      simpa [← Dict.contains_iff] using hunknown
    obtain ⟨unknown, hunknown'⟩ := hfind
    have hrefused : coerce s (.object fields) (.named name) = .error (.unknownField unknown name) := by
      change atName s (.object fields) (fieldReader? s fields) name = _
      simp only [atName, hd, hunknown']
    exact .inr ⟨_, hrefused, .inl (.unknownField hd hkey hunknown)⟩

theorem isJudged (hs : s.Built) (v : Json) (t : TypeRef) : IsJudged s v t := by
  induction v, t using rec_type with
  | hnull t => exact isJudged_null t
  | hnonNull v t hv ih => exact ih.nonNull hv
  | hlist items t ih => exact .list ih
  | hsingle v t hv hitems ih => exact ih.single hv hitems
  | hnamed v name hv ih =>
    by_cases hinput : ∃ d, Dict.get? s.types name = some (.inputObject d)
    · obtain ⟨d, hd⟩ := hinput
      by_cases hobject : ∃ fields, v = .object fields
      · obtain ⟨fields, rfl⟩ := hobject
        exact isJudged_object hs hd (ih fields rfl)
      · exact isJudged_notObject hd hv fun fields heq => hobject ⟨fields, heq⟩
    · exact isJudged_leaf hv fun d hd => hinput ⟨d, hd⟩

end Json

end GraphQL
