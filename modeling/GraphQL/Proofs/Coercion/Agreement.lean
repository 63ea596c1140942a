import GraphQL.Proofs.Coercion.Inline

/-!
# Agreement of literals with values

Values written inline and values sent for variables are read by two recursions over types.  The steps of the two are
compared one by one: scalars, named types, items, and the fields of input objects (`Json.valueAt?_literalAt_eq`).  What a
value loses when it is written inline shows in its coerced value (`Json.exists_coerce_inlineAt`).
-/

namespace GraphQL

/-! ### Fields of input objects -/

namespace InputObjectDef

/-- One field of an input object that is put together, if it is not left out. -/
def entry {m : Type → Type} [Monad m] (read? : String → Option (TypeRef → m Json)) (missing : InputFieldDef → m Json)
    (field : InputFieldDef) : m (Option (String × Json)) :=
  match (read? field.name).map (fun read => read field.type), field.default with
  | some outcome, _ => do return some (field.name, ← outcome)
  | none, some default => return some (field.name, default)
  | none, none => if field.type.isNonNull then do return some (field.name, ← missing field) else return none

theorem assemble_eq {m : Type → Type} [Monad m] (d : InputObjectDef) (read? : String → Option (TypeRef → m Json))
    (missing : InputFieldDef → m Json) :
    d.assemble read? missing = do
      return .object ((← (Dict.values d.fields).mapM (entry read? missing)).filterMap fun e => e) := by
  unfold assemble
  refine congrArg (· >>= _) (congrArg (fun f => List.mapM f _) (funext fun field => ?_))
  unfold entry
  cases read? field.name with
  | some read => rfl
  | none => cases field.default <;> rfl

/-- Only how the fields of the definition are read matters. -/
theorem assemble_congr {m : Type → Type} [Monad m] [LawfulMonad m] (d : InputObjectDef)
    {read? read?' : String → Option (TypeRef → m Json)} (missing : InputFieldDef → m Json)
    (h : ∀ field ∈ Dict.values d.fields,
      (read? field.name).map (fun read => read field.type) = (read?' field.name).map fun read => read field.type) :
    d.assemble read? missing = d.assemble read?' missing := by
  rw [assemble_eq, assemble_eq]
  congr 1
  generalize Dict.values d.fields = fields at h
  induction fields with
  | nil => rfl
  | cons field rest ih =>
    rw [List.mapM_cons, List.mapM_cons, ih fun field hfield => h field (List.mem_cons_of_mem _ hfield)]
    unfold entry
    rw [h field List.mem_cons_self]

/-- The outcome of putting fields together, without the reason for a failure. -/
theorem toOption_assemble (d : InputObjectDef) (read? : String → Option (TypeRef → Except CoercionError Json))
    (missing : InputFieldDef → Except CoercionError Json) :
    (d.assemble read? missing).toOption =
      d.assemble (fun name => (read? name).map fun read type => (read type).toOption)
        fun field => (missing field).toOption := by
  have hbind : ∀ {α β : Type} (x : Except CoercionError α) (f : α → β),
      (do return f (← x)).toOption = do return f (← x.toOption) := by
    intro α β x f
    cases x <;> rfl
  rw [assemble_eq, assemble_eq, hbind, List.toOption_mapM]
  refine congrArg (· >>= _) (congrArg (fun f => List.mapM f _) (funext fun field => ?_))
  simp only [entry]
  cases read? field.name with
  | some read => exact hbind (read field.type) fun v => some (field.name, v)
  | none =>
    cases field.default with
    | some default => rfl
    | none =>
      dsimp only [Option.map_none]
      split
      · exact hbind (missing field) fun v => some (field.name, v)
      · rfl

end InputObjectDef

theorem InputObjectDef.Keyed.get?_of_mem {d : InputObjectDef} (h : d.Keyed) {field : InputFieldDef}
    (hfield : field ∈ Dict.values d.fields) : Dict.get? d.fields field.name = some field := by
  obtain ⟨e, he, rfl⟩ := List.mem_map.1 hfield
  exact Dict.get?_of_mem h.nodup (h.name e he ▸ he)

/-! ### Scalars and named types -/

theorem IntRange.int64_holds_of_int32 {i : Int} (h : int32.holds i = true) : int64.holds i = true := by
  have hrange := of_decide_eq_true h
  simp only [int32] at hrange
  refine decide_eq_true ?_
  simp only [int64]
  omega

namespace Json

variable {s : Schema}

/-- An integer as a double, and other values as they are. -/
def inDoubles : Json → Json
  | .number (.int i) => .number (.double (Double.ofInt i))
  | v => v

/-- At a scalar type a literal means what the value means, an integer as a double at `Float`. -/
theorem atScalar?_literalAt {v : Json} (hproper : v.IsProper) (name : String) :
    Literal.atScalar? name (v.literalAt s none) = (atScalar name (if name = "Float" then v.inDoubles else v)).toOption := by
  by_cases hint : name = "Int"
  · subst hint
    cases v with
    | number n =>
      cases n with
      | double d => rfl
      | int i =>
        simp only [literalAt, Literal.atScalar?, atScalar, Number.toInt64?, String.reduceEq, if_false]
        by_cases h : IntRange.int32.holds i = true
        · simp only [h, IntRange.int64_holds_of_int32 h, if_true]
          rfl
        · cases h64 : IntRange.int64.holds i <;> simp only [h, if_true, if_false, Bool.false_eq_true] <;> rfl
    | _ => rfl
  by_cases hfloat : name = "Float"
  · subst hfloat
    cases v with
    | number n =>
      cases n with
      | int i => rfl
      | double d => exact congrArg (Option.map number) (if_pos (show d.isFinite = true from hproper))
    | _ => rfl
  rw [if_neg hfloat]
  by_cases hrest : name = "String" ∨ name = "Boolean" ∨ name = "ID"
  · rcases hrest with rfl | rfl | rfl <;> cases v with
    | number n => cases n <;> rfl
    | _ => rfl
  -- The scalars that are not built in take anything.
  · have hliteral : Literal.atScalar? name (v.literalAt s none) = (v.literalAt s none).untyped? := by
      unfold Literal.atScalar?
      split <;> first | rfl | exact absurd rfl hint | exact absurd rfl hfloat | exact absurd (by simp) hrest
    have hvalue : atScalar name v = .ok v := by
      unfold atScalar
      split <;> first | rfl | exact absurd rfl hint | exact absurd rfl hfloat | exact absurd (by simp) hrest
    rw [hliteral, hvalue, untyped?_literalAt hproper]
    rfl


theorem wantedObject?_eq_some {t : TypeRef} {d : InputObjectDef} :
    s.wantedObject? (some t) = some d ↔ Dict.get? s.types t.innermost = some (.inputObject d) := by
  simp only [Schema.wantedObject?, Option.bind_some]
  constructor
  · intro h
    split at h
    · rename_i hget
      rw [hget, Option.some.inj h]
    · exact absurd h (by simp)
  · intro h
    rw [h]

/-- Where a scalar is wanted, no input object is wanted. -/
theorem wantedObject?_of_scalar {t : TypeRef} (h : s.typeKind? t.innermost = some .scalar) :
    s.wantedObject? (some t) = none := by
  cases hwanted : s.wantedObject? (some t) with
  | none => rfl
  | some d =>
    rw [Schema.typeKind?, wantedObject?_eq_some.1 hwanted] at h
    exact absurd h (by simp [TypeDef.kind])

/-- The literal of a value at a scalar type is its literal where nothing in particular is wanted. -/
theorem literalAt_of_scalar {t : TypeRef} (h : s.typeKind? t.innermost = some .scalar) {v : Json}
    (hitem : ∀ items, v = .array items → t.item? = none) : v.literalAt s (some t) = v.literalAt s none := by
  cases v with
  | string text =>
    have henum : s.wantsEnum (some t) = false := by
      change decide (s.typeKind? t.innermost = some .enum) = false
      rw [h]
      rfl
    change (if s.wantsEnum (some t) then _ else _) = _
    rw [henum]
    rfl
  | array items =>
    change Literal.list (literalItems s items t.item?) = _
    rw [hitem items rfl]
    rfl
  | object fields =>
    change Literal.object (literalFields s fields (s.wantedObject? (some t))) = _
    rw [wantedObject?_of_scalar h]
    rfl
  | number n => cases n <;> rfl
  | _ => rfl

/-- Written inline at a scalar type, only an integer at `Float` changes. -/
theorem inlineAt_of_scalar {t : TypeRef} (h : s.typeKind? t.innermost = some .scalar) {v : Json}
    (hitem : ∀ items, v = .array items → t.item? = none) :
    v.inlineAt s (some t) = if t.innermost = "Float" then v.inDoubles else v := by
  cases v with
  | number n =>
    cases n with
    | int i =>
      by_cases hfloat : t.innermost = "Float"
      · have hwants : s.wantsFloat (some t) = true := decide_eq_true ⟨hfloat, hfloat ▸ h⟩
        simp only [inlineAt, hwants, hfloat, if_true, inDoubles]
      · have hwants : s.wantsFloat (some t) = false := decide_eq_false fun h => hfloat h.1
        simp only [inlineAt, hwants, hfloat, if_false, Bool.false_eq_true]
    | double d => exact (ite_self _).symm
  | array items =>
    change array (inlineItems s items t.item?) = if _ then array items else array items
    rw [hitem items rfl, inlineItems_none, ite_self]
  | object fields =>
    change object (inlineFields s fields (s.wantedObject? (some t))) = if _ then object fields else object fields
    rw [wantedObject?_of_scalar h, inlineFields_none, ite_self]
  | _ => exact (ite_self _).symm

/-- At a named type a literal means what the value means that is written inline, if this holds at input objects. -/
theorem atName?_literalAt (hs : s.Built) {v : Json} (hproper : v.IsProper) {t : TypeRef}
    (hitem : ∀ items, v = .array items → t.item? = none)
    {literal? : Option (String → Option (TypeRef → Option Json))}
    {field? : String → Option (TypeRef → Except CoercionError Json)}
    (hobject : ∀ d, Dict.get? s.types t.innermost = some (.inputObject d) →
      (literal?.bind fun read? => d.assemble read? fun _ => none) =
        (atName s (v.inlineAt s (some t)) field? t.innermost).toOption) :
    Literal.atName? s (v.literalAt s (some t)) literal? t.innermost =
      (atName s (v.inlineAt s (some t)) field? t.innermost).toOption := by
  cases htype : Dict.get? s.types t.innermost with
  | none =>
    simp only [Literal.atName?, atName, htype]
    rfl
  | some type =>
    have hkind : s.typeKind? t.innermost = some type.kind := congrArg (Option.map TypeDef.kind) htype
    cases type with
    | scalar d =>
      have hname : d.name = t.innermost := (hs.keyed htype).1
      simp only [Literal.atName?, atName, htype]
      rw [literalAt_of_scalar hkind hitem, inlineAt_of_scalar hkind hitem, hname]
      exact atScalar?_literalAt hproper _
    | enum d =>
      simp only [Literal.atName?, atName, htype]
      cases v with
      | string text =>
        have henum : s.wantsEnum (some t) = true := decide_eq_true hkind
        simp only [literalAt, henum, if_true, inlineAt]
        split <;> rfl
      | number n =>
        cases n with
        | int i =>
          simp only [literalAt, inlineAt]
          rfl
        | double d => rfl
      | _ => rfl
    | inputObject d =>
      rw [← hobject d htype]
      simp only [Literal.atName?, htype]
    | _ =>
      simp only [Literal.atName?, atName, htype]
      rfl

theorem isMissing_literalAt (vars : Variables) (v : Json) (wanted : Option TypeRef) :
    (v.literalAt s wanted).isMissing vars = false := by
  cases v with
  | number n => cases n <;> rfl
  | string text =>
    unfold literalAt
    split <;> rfl
  | _ => rfl

/-- The reader of a field of a literal object reads the literal of the field. -/
theorem literal_fieldReader? (vars : Variables) (fields : List (String × Json)) (d? : Option InputObjectDef)
    (name : String) :
    Literal.fieldReader? s vars (literalFields s fields d?) name =
      (Dict.get? fields name).map fun v => Literal.valueAt? s vars (v.literalAt s (d?.bind (·.type? name))) := by
  induction fields with
  | nil => rfl
  | cons e rest ih =>
    obtain ⟨k, v⟩ := e
    simp only [literalFields, Literal.fieldReader?, Dict.get?, isMissing_literalAt, Bool.false_eq_true, if_false]
    split
    · rename_i heq
      rw [heq]
      rfl
    · exact ih

/-- The reader of a field of an object reads the field. -/
theorem fieldReader?_eq (fields : List (String × Json)) (name : String) :
    fieldReader? s fields name = (Dict.get? fields name).map (coerce s) := by
  induction fields with
  | nil => rfl
  | cons e rest ih =>
    obtain ⟨k, v⟩ := e
    simp only [fieldReader?, Dict.get?]
    split
    · rfl
    · exact ih

/-- A known field that is written inline. -/
theorem get?_inlineFields {d : InputObjectDef} {name : String} (hknown : Dict.contains d.fields name = true)
    (fields : List (String × Json)) :
    Dict.get? (inlineFields s fields (some d)) name =
      (Dict.get? fields name).map fun v => v.inlineAt s (d.type? name) := by
  induction fields with
  | nil => rfl
  | cons e rest ih =>
    obtain ⟨k, v⟩ := e
    by_cases hk : k = name
    · subst hk
      simp only [inlineFields, Option.any_some, hknown, Bool.not_true, Bool.false_eq_true, if_false, Dict.get?,
        if_true, Option.map_some, Option.bind_some]
    · simp only [inlineFields, Dict.get?, if_neg hk]
      split
      · exact ih
      · simp only [Dict.get?, if_neg hk]
        exact ih

/-- Only known fields are written inline. -/
theorem find?_inlineFields (d : InputObjectDef) (fields : List (String × Json)) :
    (Dict.keys (inlineFields s fields (some d))).find? (fun key => !Dict.contains d.fields key) = none := by
  induction fields with
  | nil => rfl
  | cons e rest ih =>
    obtain ⟨k, v⟩ := e
    simp only [inlineFields, Option.any_some]
    split
    · exact ih
    · rename_i hknown
      exact (List.find?_cons_of_neg (p := fun key => !Dict.contains d.fields key) hknown).trans ih

/-- What stands for itself and not for items or fields is read at the innermost type. -/
theorem peel_atName?_literalAt (hs : s.Built) {v : Json} (hproper : v.IsProper) (harray : ∀ items, v ≠ .array items)
    (hobject : ∀ fields, v ≠ .object fields) (t : TypeRef) :
    TypeRef.peel (Literal.atName? s (v.literalAt s (some t)) none) none t =
      (TypeRef.peel (atName s (v.inlineAt s (some t)) fun _ => none) none t).toOption := by
  rw [TypeRef.peel_none, TypeRef.peel_none, TypeRef.toOption_map_wrap]
  refine congrArg _ (atName?_literalAt hs hproper (fun items h => absurd h (harray items)) fun d hd => ?_)
  simp only [atName, hd]
  cases v with
  | array items => exact absurd rfl (harray items)
  | object fields => exact absurd rfl (hobject fields)
  | number n => cases n <;> rfl
  | _ => rfl

/-- Items mean what they mean that are written inline, if each of them does. -/
theorem itemsAt?_literalItems (vars : Variables) (items : List Json) (item : TypeRef)
    (h : ∀ v ∈ items,
      Literal.valueAt? s vars (v.literalAt s (some item)) item = ((v.inlineAt s (some item)).coerce s item).toOption) :
    Literal.itemsAt? s vars (literalItems s items (some item)) item =
      (coerceItems s (inlineItems s items (some item)) item).toOption := by
  induction items with
  | nil => rfl
  | cons v rest ih =>
    simp only [literalItems, Literal.itemsAt?, isMissing_literalAt, Bool.false_eq_true, if_false, inlineItems,
      coerceItems, h v List.mem_cons_self, ih fun w hw => h w (List.mem_cons_of_mem _ hw)]
    cases coerce s (v.inlineAt s (some item)) item with
    | error => rfl
    | ok w => cases coerceItems s (inlineItems s rest (some item)) item <;> rfl

/-- Fields mean what they mean that are written inline, if each of them does. -/
theorem assemble_literalFields (vars : Variables) {d : InputObjectDef} (hkeyed : d.Keyed) {fields : List (String × Json)}
    (h : ∀ e ∈ fields, ∀ t : TypeRef,
      Literal.valueAt? s vars (e.2.literalAt s (some t)) t = ((e.2.inlineAt s (some t)).coerce s t).toOption)
    {missing : InputFieldDef → CoercionError} :
    d.assemble (Literal.fieldReader? s vars (literalFields s fields (some d))) (fun _ => none) =
      (d.assemble (fieldReader? s (inlineFields s fields (some d))) fun field => .error (missing field)).toOption := by
  rw [InputObjectDef.toOption_assemble]
  refine d.assemble_congr _ fun field hfield => ?_
  have hget := hkeyed.get?_of_mem hfield
  have htype : d.type? field.name = some field.type := congrArg (Option.map InputFieldDef.type) hget
  rw [literal_fieldReader?, fieldReader?_eq, get?_inlineFields (congrArg Option.isSome hget), Option.bind_some, htype]
  cases hv : Dict.get? fields field.name with
  | none => rfl
  | some v => exact congrArg some (h _ (Dict.mem_of_get? hv) field.type)

/-- A literal means what the value means that is written inline. -/
theorem valueAt?_literalAt_eq (hs : s.Built) (vars : Variables) {v : Json} (hproper : v.IsProper) (t : TypeRef) :
    Literal.valueAt? s vars (v.literalAt s (some t)) t = ((v.inlineAt s (some t)).coerce s t).toOption := by
  induction v using rec_mem generalizing t with
  | hnull =>
    change (if t.isNonNull then none else some null) = (if t.isNonNull then Except.error _ else .ok null).toOption
    split <;> rfl
  | hbool b => exact peel_atName?_literalAt hs hproper (by simp) (by simp) t
  | hnumber n => cases n <;> exact peel_atName?_literalAt hs hproper (by simp) (by simp) t
  | hstring text =>
    have h := peel_atName?_literalAt hs hproper (v := .string text) (by simp) (by simp) t
    cases hwants : s.wantsEnum (some t) <;>
      simp only [literalAt, hwants, if_true, if_false, Bool.false_eq_true] at h ⊢ <;> exact h
  | harray items ih =>
    have hitems := isProper_array.1 hproper
    simp only [literalAt, inlineAt, Literal.valueAt?, coerce, TypeRef.peel_some, Option.bind_some]
    cases hitem : t.item? with
    | none =>
      have h : Literal.atName? s ((array items).literalAt s (some t)) none t.innermost =
          (atName s ((array items).inlineAt s (some t)) (fun _ => none) t.innermost).toOption := by
        refine atName?_literalAt hs hproper (fun _ _ => hitem) fun d hd => ?_
        simp only [atName, hd]
        rfl
      simp only [literalAt, inlineAt, Option.bind_some, hitem] at h
      exact h
    | some item =>
      dsimp only
      rw [itemsAt?_literalItems vars items item fun v hv => ih v hv (hitems v hv) item, Except.toOption_map]
  | hobject fields ih =>
    have hfields := (isProper_object.1 hproper).2
    simp only [literalAt, inlineAt, Literal.valueAt?, coerce]
    rw [TypeRef.peel_none, TypeRef.peel_none, TypeRef.toOption_map_wrap]
    refine congrArg _ (atName?_literalAt hs hproper (by simp) fun d hd => ?_)
    have hwanted : s.wantedObject? (some t) = some d := wantedObject?_eq_some.2 hd
    simp only [atName, hd, inlineAt, hwanted, find?_inlineFields, Option.bind_some]
    exact assemble_literalFields vars (hs.keyed hd).2 fun e he t => ih e he (hfields e he) t

/-! ### What gets lost -/

theorem coerceItems_eq_mapM (items : List Json) (item : TypeRef) :
    coerceItems s items item = items.mapM (coerce s · item) := by
  induction items with
  | nil => rfl
  | cons v rest ih =>
    rw [List.mapM_cons, ← ih]
    rfl

/-- Where no field is unknown, all fields are written inline. -/
theorem inlineFields_eq_self {d : InputObjectDef} {fields : List (String × Json)}
    (hknown : ∀ e ∈ fields, Dict.contains d.fields e.1 = true)
    (h : ∀ e ∈ fields, e.2.inlineAt s (d.type? e.1) = e.2) : inlineFields s fields (some d) = fields := by
  induction fields with
  | nil => rfl
  | cons e rest ih =>
    obtain ⟨name, v⟩ := e
    have hname : Dict.contains d.fields name = true := hknown _ List.mem_cons_self
    have hv : v.inlineAt s (d.type? name) = v := h _ List.mem_cons_self
    simp only [inlineFields, Option.any_some, hname, Bool.not_true, Bool.false_eq_true, if_false, Option.bind_some, hv,
      ih (fun e he => hknown e (List.mem_cons_of_mem _ he)) fun e he => h e (List.mem_cons_of_mem _ he)]

/-- Fields that can be put together can also when they are written inline, and to the same object only if each of them is the
same. -/
theorem exists_assemble_inlineFields {d : InputObjectDef} (hkeyed : d.Keyed) {fields : List (String × Json)}
    (h : ∀ e ∈ fields, ∀ (t : TypeRef) (w : Json), coerce s e.2 t = .ok w →
      ∃ w', coerce s (e.2.inlineAt s (some t)) t = .ok w' ∧ (w = w' → e.2.inlineAt s (some t) = e.2))
    {missing : InputFieldDef → Except CoercionError Json} {w : Json}
    (hw : d.assemble (fieldReader? s fields) missing = .ok w) :
    ∃ w', d.assemble (fieldReader? s (inlineFields s fields (some d))) missing = .ok w' ∧
      (w = w' → ∀ field ∈ Dict.values d.fields, ∀ v, Dict.get? fields field.name = some v →
        v.inlineAt s (some field.type) = v) := by
  rw [InputObjectDef.assemble_eq] at hw
  cases hentries : (Dict.values d.fields).mapM (InputObjectDef.entry (fieldReader? s fields) missing) with
  | error e =>
    rw [hentries] at hw
    exact absurd hw (by simp [bind, Except.bind])
  | ok entries =>
    rw [hentries] at hw
    obtain rfl : object (entries.filterMap fun e => e) = w := Except.ok.inj hw
    have hentry : ∀ field ∈ Dict.values d.fields, ∀ e, InputObjectDef.entry (fieldReader? s fields) missing field = .ok e →
        ∃ e', InputObjectDef.entry (fieldReader? s (inlineFields s fields (some d))) missing field = .ok e' ∧
          e.isSome = e'.isSome ∧
          (e = e' → ∀ v, Dict.get? fields field.name = some v → v.inlineAt s (some field.type) = v) := by
      intro field hfield e he
      have hget := hkeyed.get?_of_mem hfield
      have htype : d.type? field.name = some field.type := congrArg (Option.map InputFieldDef.type) hget
      unfold InputObjectDef.entry at he ⊢
      rw [fieldReader?_eq] at he ⊢
      rw [get?_inlineFields (congrArg Option.isSome hget), htype]
      cases hv : Dict.get? fields field.name with
      | none =>
        rw [hv] at he
        exact ⟨e, he, rfl, fun _ v hv => absurd hv (by simp)⟩
      | some v =>
        rw [hv] at he
        simp only [Option.map_some] at he ⊢
        cases hx : coerce s v field.type with
        | error x =>
          rw [hx] at he
          exact absurd he (by simp [bind, Except.bind])
        | ok x =>
          rw [hx] at he
          obtain rfl : some (field.name, x) = e := Except.ok.inj he
          obtain ⟨x', hx', hsame⟩ := h _ (Dict.mem_of_get? hv) field.type x hx
          rw [hx']
          refine ⟨some (field.name, x'), rfl, rfl, fun heq w hw => ?_⟩
          obtain rfl := Option.some.inj hw
          exact hsame (Prod.mk.inj (Option.some.inj heq)).2
    obtain ⟨entries', hentries', hsame⟩ := List.exists_mapM_ok (k := fun e => e) hentry hentries
    refine ⟨object (entries'.filterMap fun e => e), ?_, fun heq => hsame (object.inj heq)⟩
    rw [InputObjectDef.assemble_eq, hentries']
    rfl

/-- A value that can be coerced can be coerced also when it is written inline, and to the same value only if it stays as it
is. -/
theorem exists_coerce_inlineAt (hs : s.Built) {v : Json} (hproper : v.IsProper) {t : TypeRef} {w : Json}
    (hw : coerce s v t = .ok w) :
    ∃ w', coerce s (v.inlineAt s (some t)) t = .ok w' ∧ (w = w' → v.inlineAt s (some t) = v) := by
  induction v using rec_mem generalizing t w with
  | hnull => exact ⟨w, hw, fun _ => rfl⟩
  | hbool b => exact ⟨w, hw, fun _ => rfl⟩
  | hstring text => exact ⟨w, hw, fun _ => rfl⟩
  | hnumber n =>
    cases n with
    | double d => exact ⟨w, hw, fun _ => rfl⟩
    | int i =>
      cases hfloat : s.wantsFloat (some t) with
      | false =>
        have heq : (number (.int i)).inlineAt s (some t) = number (.int i) := by
          simp only [inlineAt, hfloat, Bool.false_eq_true, if_false]
        exact ⟨w, heq.symm ▸ hw, fun _ => heq⟩
      | true =>
        obtain ⟨hname, hkind⟩ := of_decide_eq_true (show decide (_ ∧ _) = true from hfloat)
        have hcoerce : ∀ n, coerce s (number n) t = .ok (t.wrap (number n)) := by
          intro n
          obtain ⟨type, htype, hscalar⟩ := Option.map_eq_some_iff.1 hkind
          cases type with
          | scalar d =>
            simp only [coerce, TypeRef.peel_none, atName, hname, htype]
            rfl
          | _ => exact absurd hscalar (by simp [TypeDef.kind])
        simp only [inlineAt, hfloat, if_true]
        refine ⟨_, hcoerce _, fun heq => ?_⟩
        obtain rfl := Except.ok.inj ((hcoerce _).symm.trans hw)
        exact absurd (TypeRef.wrap_inj heq) (by simp)
  | harray items ih =>
    have hitems := isProper_array.1 hproper
    simp only [coerce, inlineAt, TypeRef.peel_some, Option.bind_some] at hw ⊢
    cases hitem : t.item? with
    | none =>
      rw [hitem] at hw
      rw [inlineItems_none]
      exact ⟨w, hw, fun _ => rfl⟩
    | some item =>
      rw [hitem] at hw
      dsimp only at hw ⊢
      rw [coerceItems_eq_mapM] at hw ⊢
      cases hxs : items.mapM (coerce s · item) with
      | error x =>
        rw [hxs] at hw
        exact absurd hw (by simp [Except.map])
      | ok xs =>
        rw [hxs] at hw
        obtain rfl : array xs = w := Except.ok.inj hw
        obtain ⟨xs', hxs', hsame⟩ := List.exists_mapM_ok (k := some) (fun v hv x hx => by
          obtain ⟨x', hx', hsame⟩ := ih v hv (hitems v hv) hx
          exact ⟨x', hx', rfl, fun heq => hsame (Option.some.inj heq)⟩) hxs
        rw [inlineItems_eq_map, List.mapM_map]
        refine ⟨array xs', congrArg (Except.map array) hxs', fun heq => congrArg array ?_⟩
        obtain rfl := array.inj heq
        rw [List.map_congr_left (hsame rfl), List.map_id']
  | hobject fields ih =>
    obtain ⟨hkeys, hfields⟩ := isProper_object.1 hproper
    simp only [coerce, inlineAt, TypeRef.peel_none] at hw ⊢
    cases hx : atName s (object fields) (fieldReader? s fields) t.innermost with
    | error e =>
      rw [hx] at hw
      exact absurd hw (by simp [Functor.map, Except.map])
    | ok x =>
      rw [hx] at hw
      obtain rfl : t.wrap x = w := Except.ok.inj hw
      cases hwanted : s.wantedObject? (some t) with
      | none =>
        rw [inlineFields_none, hx]
        exact ⟨_, rfl, fun _ => rfl⟩
      | some d =>
        have hd : Dict.get? s.types t.innermost = some (.inputObject d) := wantedObject?_eq_some.1 hwanted
        simp only [atName, hd] at hx ⊢
        rw [find?_inlineFields]
        split at hx
        · exact absurd hx (by simp)
        · rename_i hknown
          obtain ⟨x', hx', hsame⟩ := exists_assemble_inlineFields (hs.keyed hd).2
            (fun e he t w hw => ih e he (hfields e he) hw) hx
          rw [hx']
          refine ⟨t.wrap x', rfl, fun heq => congrArg object ?_⟩
          have hall : ∀ e ∈ fields, Dict.contains d.fields e.1 = true := by
            intro e he
            have := List.find?_eq_none.1 hknown e.1 (List.mem_map.2 ⟨e, he, rfl⟩)
            simpa using this
          refine inlineFields_eq_self hall fun e he => ?_
          obtain ⟨field, hfield⟩ := Option.isSome_iff_exists.1 (hall e he)
          have hname : field.name = e.1 := (hs.keyed hd).2.name _ (Dict.mem_of_get? hfield)
          have htype : d.type? e.1 = some field.type := congrArg (Option.map InputFieldDef.type) hfield
          rw [htype]
          exact hsame (TypeRef.wrap_inj heq) field (List.mem_map.2 ⟨_, Dict.mem_of_get? hfield, rfl⟩) e.2
            (hname ▸ Dict.get?_of_mem hkeys he)

/-- **Literals and values.**  The literal of a value means what the value means that is written inline, without the fields
that its input objects do not know and with doubles instead of integers where a `Float` is wanted.  It means what the value
itself means exactly if there is no such field and no such integer, or if it means nothing. -/
theorem valueAt?_literalAt (hs : s.Built) (vars : Variables) {v : Json} (hproper : v.IsProper) (t : TypeRef) :
    (v.literalAt s (some t)).valueAt? s vars t = ((v.inlineAt s (some t)).coerce s t).toOption ∧
      ((v.literalAt s (some t)).valueAt? s vars t = (v.coerce s t).toOption ↔
        v.inlineAt s (some t) = v ∨ (v.literalAt s (some t)).valueAt? s vars t = none) := by
  have hmeans := valueAt?_literalAt_eq hs vars hproper t
  refine ⟨hmeans, fun heq => ?_, ?_⟩
  · cases hw : v.coerce s t with
    | error e => exact .inr (by rw [heq, hw]; rfl)
    | ok w =>
      obtain ⟨w', hw', hsame⟩ := exists_coerce_inlineAt hs hproper hw
      rw [hmeans, hw, hw'] at heq
      exact .inl (hsame (Option.some.inj heq).symm)
  · rintro (hinline | hnone)
    · rw [hmeans, hinline]
    · cases hw : v.coerce s t with
      | error e => rw [hnone]; rfl
      | ok w =>
        obtain ⟨w', hw', -⟩ := exists_coerce_inlineAt hs hproper hw
        rw [hmeans, hw'] at hnone
        exact absurd hnone (by simp [Except.toOption])

end Json

/-! ### A filter -/

/-- An input object with an integer and a double. -/
def filterInput : InputObjectDef where
  name := "Filter"
  fields := [("limit", { name := "limit", type := .named "Int" }), ("ratio", { name := "ratio", type := .named "Float" })]

/-- A draft of a schema with the input object `Filter`. -/
def filterDraft : SchemaDraft := .ofTypes [.inputObject filterInput, .ofFields "Query" [("a", .named "String")]]

/-- The schema of `filterDraft`. -/
def filterSchema : Schema := ⟨"Query", none, none, filterDraft.types, filterDraft.directives⟩

theorem filterSchema_built : filterSchema.Built := by
  have hfilter : (TypeDef.inputObject filterInput).Keyed := ⟨by decide, by decide⟩
  exact ⟨filterDraft, .addType (.addType (.start (some "Query") none none) hfilter) trivial, rfl⟩

/-- A literal at `Filter` with the double in another order means what the value means. -/
theorem filter_read_alike :
    filterSchema.Built ∧ (Json.object [("ratio", .number (.double (.ofInt 2))), ("limit", .ofInt 1)]).IsProper ∧
      (Json.literalAt filterSchema (.object [("ratio", .number (.double (.ofInt 2))), ("limit", .ofInt 1)])
          (some (.named "Filter"))).valueAt? filterSchema [] (.named "Filter") =
        some (.object [("limit", .ofInt 1), ("ratio", .number (.double (.ofInt 2)))]) := by
  have hproper : (Json.object [("ratio", .number (.double (.ofInt 2))), ("limit", .ofInt 1)]).IsProper :=
    ⟨by decide, show (Double.ofInt 2).isFinite = true by decide +kernel, trivial, trivial⟩
  refine ⟨filterSchema_built, hproper, ?_⟩
  rw [(Json.valueAt?_literalAt filterSchema_built [] hproper (.named "Filter")).1]
  rfl

/-- An unknown field is dropped from a literal but refused in a value, and an integer at `Float` is a double in a literal but
stays an integer in a value. -/
theorem filter_read_differently :
    (Json.literalAt filterSchema (.object [("limit", .ofInt 1), ("offset", .ofInt 2)])
          (some (.named "Filter"))).valueAt? filterSchema [] (.named "Filter") = some (.object [("limit", .ofInt 1)]) ∧
      Json.coerce filterSchema (.object [("limit", .ofInt 1), ("offset", .ofInt 2)]) (.named "Filter") =
        .error (.unknownField "offset" "Filter") ∧
      (Json.literalAt filterSchema (.object [("ratio", .ofInt 2)])
          (some (.named "Filter"))).valueAt? filterSchema [] (.named "Filter") =
        some (.object [("ratio", .number (.double (.ofInt 2)))]) ∧
      Json.coerce filterSchema (.object [("ratio", .ofInt 2)]) (.named "Filter") = .ok (.object [("ratio", .ofInt 2)]) :=
  ⟨rfl, rfl, rfl, rfl⟩

end GraphQL
