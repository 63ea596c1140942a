import GraphQL.Proofs.Coercion.Judgement

/-!
# Coerced values

What a value is coerced to is what the rules of `Json.Reads` read it as, and nothing else (`Json.coerce_eq_ok_iff`).  It is
of the type at every depth (`Json.IsOfType`), and it is coerced to itself, provided that the defaults of input fields are
(`Json.coerce_sound`).
-/

namespace GraphQL

namespace Json

/-- The value is of the type at every depth: nothing is null that must not be, what is of a list type is an array, and
objects have fields that their type declares, in the order of the declarations, among them all that are required and all
that have defaults. -/
inductive IsOfType (s : Schema) : Json → TypeRef → Prop
  | null {t} (h : t.isNonNull = false) : IsOfType s .null t
  | nonNull {v t} (hv : v ≠ .null) (h : IsOfType s v t) : IsOfType s v (.nonNull t)
  | list {items t} (h : ∀ v ∈ items, IsOfType s v t) : IsOfType s (.array items) (.list t)
  | scalar {name d v} (hd : Dict.get? s.types name = some (.scalar d)) (hv : v ≠ .null) (h : v.IsOfScalar name) :
      IsOfType s v (.named name)
  | enum {name d text} (hd : Dict.get? s.types name = some (.enum d)) (h : d.hasValue text = true) :
      IsOfType s (.string text) (.named name)
  | object {name d fields} (hd : Dict.get? s.types name = some (.inputObject d))
      (horder : (Dict.keys fields).Sublist (Dict.keys d.fields))
      (hrequired : ∀ f ∈ Dict.values d.fields, f.type.isNonNull = true ∨ f.default ≠ none → f.name ∈ Dict.keys fields)
      (hfields : ∀ e ∈ fields, ∀ f, Dict.get? d.fields e.1 = some f → IsOfType s e.2 f.type) :
      IsOfType s (.object fields) (.named name)

end Json

/-- The default of each input field is read as itself. -/
def Schema.DefaultsStand (s : Schema) : Prop :=
  ∀ name d, Dict.get? s.types name = some (.inputObject d) → ∀ f ∈ Dict.values d.fields, ∀ v, f.default = some v →
    Json.coerce s v f.type = .ok v

namespace Json

variable {s : Schema}

/-! ### Readings -/

/-- What a value is read as is what it is coerced to. -/
theorem Reads.coerce_eq (hs : s.Built) {v w : Json} {t : TypeRef} (h : Reads s v t w) : coerce s v t = .ok w := by
  induction h with
  | null h => exact coerce_null h
  | nonNull hv _ ih => exact (coerce_nonNull hv _).trans ih
  | @list items ws t hlength _ ih =>
    have hmap : items.map (coerce s · t) = ws.map .ok := by
      refine List.ext_getElem (by simpa using hlength) fun i hi hi' => ?_
      simp only [List.length_map] at hi hi'
      simp only [List.getElem_map]
      exact ih i _ _ (List.getElem?_eq_getElem hi) (List.getElem?_eq_getElem hi')
    rw [coerce_list, List.mapM_eq_ok.2 hmap]
    rfl
  | single hv hitems _ ih =>
    rw [coerce_single hv hitems, ih]
    rfl
  | scalar hd hv h => exact (coerce_scalar hd hv).trans h.atScalar_eq
  | enum hd h => exact coerce_enum hd h
  | @object name d fields ws hd hknown horder hthere _ hmissing ih =>
    rw [coerce_object hd hknown]
    refine (InputObjectDef.assemble_eq_ok (hs.keyed hd).2).2 ⟨ws, rfl, horder, fun f hf => ?_⟩
    cases hv : Dict.get? fields f.name with
    | some v =>
      obtain ⟨w, hw⟩ := hthere f hf v hv
      rw [entry_of_some hv, ih f hf v w hv hw, hw]
      rfl
    | none =>
      obtain ⟨hdefault, hnullable⟩ := hmissing f hf hv
      rw [entry_of_none hv, hdefault, if_neg fun h => by simp [hnullable h.1] at h]

theorem coerce_eq_ok_iff (hs : s.Built) {v w : Json} {t : TypeRef} : coerce s v t = .ok w ↔ Reads s v t w := by
  refine ⟨fun h => ?_, fun h => h.coerce_eq hs⟩
  rcases isJudged hs v t with ⟨w', hw', hreads⟩ | ⟨e, he, -⟩
  · exact Except.ok.inj (hw'.symm.trans h) ▸ hreads
  · exact absurd (he.symm.trans h) (by simp)

/-- What a value is read as is read as itself, if the defaults are. -/
theorem Reads.again (hs : s.Built) (hdefaults : s.DefaultsStand) {v w : Json} {t : TypeRef} (h : Reads s v t w) :
    Reads s w t w := by
  induction h with
  | null h => exact .null h
  | nonNull hv h ih => exact .nonNull (h.ne_null hv) ih
  | list hlength _ ih =>
    refine .list rfl fun i w w' hw hw' => ?_
    obtain rfl : w = w' := Option.some.inj (hw.symm.trans hw')
    obtain ⟨hi, -⟩ := List.getElem?_eq_some_iff.1 hw
    exact ih i _ w (List.getElem?_eq_getElem (hlength ▸ hi)) hw
  | @single v t w hv hitems h ih =>
    refine .list rfl fun i w₁ w₂ h₁ h₂ => ?_
    obtain rfl : w₁ = w₂ := Option.some.inj (h₁.symm.trans h₂)
    obtain rfl : w₁ = w := List.mem_singleton.1 (List.mem_of_getElem? h₁)
    exact ih
  | scalar hd hv h => exact .scalar hd (h.ne_null hv) h.again
  | enum hd h => exact .enum hd h
  | @object name d fields ws hd hknown horder hthere _ hmissing ih =>
    refine .object hd (fun key hkey => horder.subset hkey) horder (fun f hf w hw => ⟨w, hw⟩) (fun f hf w w' hw hw' => ?_)
      fun f hf hw => ?_
    · obtain rfl : w = w' := Option.some.inj (hw.symm.trans hw')
      cases hv : Dict.get? fields f.name with
      | some v => exact ih f hf v w hv hw
      | none =>
        have hdefault : f.default = some w := (hmissing f hf hv).1.symm.trans hw
        exact (coerce_eq_ok_iff hs).1 (hdefaults name d hd f hf w hdefault)
    · cases hv : Dict.get? fields f.name with
      | some v =>
        obtain ⟨w, hw'⟩ := hthere f hf v hv
        exact absurd (hw'.symm.trans hw) (by simp)
      | none =>
        obtain ⟨hdefault, hnullable⟩ := hmissing f hf hv
        exact ⟨hw.trans (hw.symm.trans hdefault), hnullable⟩

/-- An object of declared fields in their order is of the type of an input object, if the fields are of their types and none is
left out that has a default or must not be null. -/
theorem IsOfType.of_fields (hs : s.Built) {name : String} {d : InputObjectDef}
    (hd : Dict.get? s.types name = some (.inputObject d)) {ws : Dict Json}
    (horder : (Dict.keys ws).Sublist (Dict.keys d.fields))
    (hmissing : ∀ f ∈ Dict.values d.fields, Dict.get? ws f.name = none → f.default = none ∧ f.type.isNonNull = false)
    (hfields : ∀ f ∈ Dict.values d.fields, ∀ w, Dict.get? ws f.name = some w → IsOfType s w f.type) :
    IsOfType s (.object ws) (.named name) := by
  have hkeyed := (hs.keyed hd).2
  refine .object hd horder (fun f hf hrequired => ?_) fun e he f hf => ?_
  · by_contra hnot
    obtain ⟨hdefault, hnullable⟩ := hmissing f hf (Dict.get?_eq_none.2 hnot)
    simp [hnullable, hdefault] at hrequired
  · have hname : f.name = e.1 := hkeyed.name _ (Dict.mem_of_get? hf)
    have hmem : f ∈ Dict.values d.fields := List.mem_map.2 ⟨_, Dict.mem_of_get? hf, rfl⟩
    exact hfields f hmem e.2 (hname ▸ Dict.get?_of_mem (hkeyed.nodup.sublist horder) he)

/-- What is read as itself is of the type. -/
theorem Reads.isOfType (hs : s.Built) {v : Json} {t : TypeRef} (h : Reads s v t v) : IsOfType s v t := by
  induction v, t using rec_type with
  | hnull t =>
    cases h with
    | null h => exact .null h
    | nonNull hv => exact absurd rfl hv
    | scalar _ hv => exact absurd rfl hv
  | hnonNull v t hv ih =>
    cases h with
    | null h => exact .null h
    | nonNull _ h => exact .nonNull hv (ih h)
  | hlist items t ih =>
    cases h with
    | list _ h =>
      refine .list fun v hv => ?_
      obtain ⟨i, hi⟩ := List.getElem?_of_mem hv
      exact ih v hv (h i v v hi hi)
    | single _ hitems => exact absurd rfl (hitems _)
  | hsingle v t hv hitems =>
    cases h with
    | null => exact absurd rfl hv
    | list => exact absurd rfl (hitems _)
    | single => exact absurd rfl (hitems _)
  | hnamed v name hv ih =>
    cases h with
    | null => exact absurd rfl hv
    | scalar hd _ h => exact .scalar hd hv h.isOfScalar
    | enum hd h => exact .enum hd h
    | @object _ d fields _ hd _ horder _ hread hmissing =>
      refine .of_fields hs hd horder (fun f hf hnone => ?_) fun f hf w hw => ?_
      · obtain ⟨hdefault, hnullable⟩ := hmissing f hf hnone
        have hdefault : f.default = none := hdefault.symm.trans hnone
        exact ⟨hdefault, hnullable hdefault⟩
      · exact ih fields rfl _ (Dict.mem_of_get? hw) f.type (hread f hf w w hw hw)

/-- At the type of an input object. -/
theorem Reads.object_inv {name : String} {d : InputObjectDef} (hd : Dict.get? s.types name = some (.inputObject d))
    {v w : Json} (hv : v ≠ .null) (h : Reads s v (.named name) w) : ∃ fields, v = .object fields ∧
      (∀ key ∈ Dict.keys fields, key ∈ Dict.keys d.fields) ∧
      (∀ f ∈ Dict.values d.fields, ∀ v, Dict.get? fields f.name = some v → ∃ w, Reads s v f.type w) ∧
      ∀ f ∈ Dict.values d.fields, Dict.get? fields f.name = none → f.default = none → f.type.isNonNull = false := by
  cases h with
  | null => exact absurd rfl hv
  | scalar hd' => exact absurd (hd.symm.trans hd') (by simp)
  | enum hd' => exact absurd (hd.symm.trans hd') (by simp)
  | @object _ _ fields ws hd' hknown _ hthere hread hmissing =>
    obtain rfl := TypeDef.inputObject.inj (Option.some.inj (hd.symm.trans hd'))
    refine ⟨fields, rfl, hknown, fun f hf v hv => ?_, fun f hf hv => (hmissing f hf hv).2⟩
    obtain ⟨w, hw⟩ := hthere f hf v hv
    exact ⟨w, hread f hf v w hv hw⟩

/-- What violates a type is not read. -/
theorem Violates.not_reads {v : Json} {t : TypeRef} (h : Violates s v t) (w : Json) : ¬ Reads s v t w := by
  intro hreads
  induction h generalizing w with
  | null =>
    cases hreads with
    | null h => exact absurd h (by simp [TypeRef.isNonNull])
    | nonNull hv => exact hv rfl
  | nonNull h ih =>
    cases hreads with
    | null h => exact absurd h (by simp [TypeRef.isNonNull])
    | nonNull hv hreads => exact ih _ hreads
  | item hv h ih =>
    cases hreads with
    | single _ hitems => exact hitems _ rfl
    | list hlength hreads =>
      obtain ⟨i, hi⟩ := List.getElem?_of_mem hv
      obtain ⟨hlt, -⟩ := List.getElem?_eq_some_iff.1 hi
      exact ih _ (hreads i _ _ hi (List.getElem?_eq_getElem (hlength ▸ hlt)))
  | single hv hitems h ih =>
    cases hreads with
    | null => exact hv rfl
    | list => exact hitems _ rfl
    | single _ _ hreads => exact ih _ hreads
  | scalar hd hv h hid =>
    cases hreads with
    | null => exact hv rfl
    | enum hd' => exact absurd (hd.symm.trans hd') (by simp)
    | object hd' => exact absurd (hd.symm.trans hd') (by simp)
    | scalar _ _ hreads =>
      cases hreads with
      | idOfInt i => exact hid rfl i rfl
      | int hi => exact h hi
      | custom hcustom => exact h (ReadsScalar.custom hcustom _).isOfScalar
      | _ => exact h trivial
  | enum hd hv h =>
    cases hreads with
    | null => exact hv rfl
    | scalar hd' => exact absurd (hd.symm.trans hd') (by simp)
    | object hd' => exact absurd (hd.symm.trans hd') (by simp)
    | enum hd' hvalue =>
      obtain rfl := TypeDef.enum.inj (Option.some.inj (hd.symm.trans hd'))
      exact absurd hvalue (by simp [h _ rfl])
  | list hd =>
    obtain ⟨fields, heq, -⟩ := hreads.object_inv hd (by simp)
    exact absurd heq (by simp)
  | leaf hd hv _ hfields =>
    obtain ⟨fields, heq, -⟩ := hreads.object_inv hd hv
    exact hfields fields heq
  | unknownField hd hkey h =>
    obtain ⟨fields, heq, hknown, -⟩ := hreads.object_inv hd (by simp)
    obtain rfl := object.inj heq
    exact h (hknown _ hkey)
  | missingField hd hf hmissing hdefault hrequired =>
    obtain ⟨fields, heq, -, -, hnullable⟩ := hreads.object_inv hd (by simp)
    obtain rfl := object.inj heq
    exact absurd (hnullable _ hf (Dict.get?_eq_none.2 hmissing) hdefault) (by simp [hrequired])
  | field hd hf hv h ih =>
    obtain ⟨fields, heq, -, hfields, -⟩ := hreads.object_inv hd (by simp)
    obtain rfl := object.inj heq
    obtain ⟨w, hw⟩ := hfields _ hf _ hv
    exact ih w hw

/-- **Coerced values.**  A value that is coerced is of the type at every depth then, it is what the rules read the value as,
with single values in lists and defaults for missing fields, and it is coerced to itself.  A value is refused if it violates
the type, and only then, unless arguments cannot have the type. -/
theorem coerce_sound (hs : s.Built) (hdefaults : s.DefaultsStand) (v : Json) (t : TypeRef) :
    (∀ w, coerce s v t = .ok w → IsOfType s w t ∧ Reads s v t w ∧ coerce s w t = .ok w) ∧
      (∀ e, coerce s v t = .error e → Violates s v t ∨ ¬ s.IsInput t ∧ e = .notInputType t.innermost) ∧
      (Violates s v t → ∃ e, coerce s v t = .error e) := by
  refine ⟨fun w hw => ?_, fun e he => ?_, fun h => ?_⟩
  · have hreads := (coerce_eq_ok_iff hs).1 hw
    have hagain := hreads.again hs hdefaults
    exact ⟨hagain.isOfType hs, hreads, hagain.coerce_eq hs⟩
  · rcases isJudged hs v t with ⟨w, hw, -⟩ | ⟨e', he', hwrong⟩
    · exact absurd (hw.symm.trans he) (by simp)
    · exact Except.error.inj (he'.symm.trans he) ▸ hwrong
  · rcases isJudged hs v t with ⟨w, -, hreads⟩ | ⟨e, he, -⟩
    · exact absurd hreads (h.not_reads w)
    · exact ⟨e, he⟩

end Json

/-! ### A page -/

/-- An input object with a list of IDs, a default, and pages in pages. -/
def pageInput : InputObjectDef where
  name := "Page"
  fields := [("ids", { name := "ids", type := .nonNull (.list (.nonNull (.named "ID"))) }),
    ("size", { name := "size", type := .named "Int", default := some (.ofInt 10) }),
    ("next", { name := "next", type := .named "Page" })]

/-- A draft of a schema with the input object `Page`. -/
def pageDraft : SchemaDraft := .ofTypes [.inputObject pageInput, .ofFields "Query" [("a", .named "String")]]

/-- The schema of `pageDraft`. -/
def pageSchema : Schema := ⟨"Query", none, none, pageDraft.types, pageDraft.directives⟩

theorem pageSchema_built : pageSchema.Built := by
  have hpage : (TypeDef.inputObject pageInput).Keyed := ⟨by decide, by decide⟩
  exact ⟨pageDraft, .addType (.addType (.start (some "Query") none none) hpage) trivial, rfl⟩

theorem pageSchema_defaultsStand : pageSchema.DefaultsStand := by
  intro name d hd f hf v hv
  have htypes : pageSchema.types = (ScalarDef.builtin.map fun d => (d.name, TypeDef.scalar d)) ++
      [("Page", .inputObject pageInput), ("Query", (TypeDef.ofFields "Query" [("a", .named "String")]))] := rfl
  have hmem := Dict.mem_of_get? hd
  rw [htypes] at hmem
  obtain ⟨-, rfl⟩ : name = "Page" ∧ d = pageInput := by
    simpa [TypeDef.ofFields] using hmem
  obtain rfl | rfl | rfl : f = _ ∨ f = _ ∨ f = _ := by
    simpa [Dict.values, pageInput] using hf
  · exact absurd hv (by simp)
  · obtain rfl := Option.some.inj hv
    rfl
  · exact absurd hv (by simp)

/-- A single number stands for a list of IDs, the size is filled in where it is missing, and what is read so is read as itself
again; a page in a page without IDs is refused. -/
theorem page_read : pageSchema.Built ∧ pageSchema.DefaultsStand ∧
    Json.coerce pageSchema (.object [("next", .object [("size", .null), ("ids", .array [])]), ("ids", .ofInt 7)])
        (.named "Page") =
      .ok (.object [("ids", .array [.string "7"]), ("size", .ofInt 10),
        ("next", .object [("ids", .array []), ("size", .null)])]) ∧
    Json.coerce pageSchema (.object [("ids", .array [.string "7"]), ("size", .ofInt 10),
          ("next", .object [("ids", .array []), ("size", .null)])]) (.named "Page") =
      .ok (.object [("ids", .array [.string "7"]), ("size", .ofInt 10),
        ("next", .object [("ids", .array []), ("size", .null)])]) ∧
    Json.Violates pageSchema (.object [("ids", .array []), ("next", .object [])]) (.named "Page") := by
  have hread : Json.coerce pageSchema
      (.object [("next", .object [("size", .null), ("ids", .array [])]), ("ids", .ofInt 7)]) (.named "Page") =
      .ok (.object [("ids", .array [.string "7"]), ("size", .ofInt 10),
        ("next", .object [("ids", .array []), ("size", .null)])]) := rfl
  have hrefused : Json.coerce pageSchema (.object [("ids", .array []), ("next", .object [])]) (.named "Page") =
      .error (.missingField "ids" (.nonNull (.list (.nonNull (.named "ID"))))) := rfl
  refine ⟨pageSchema_built, pageSchema_defaultsStand, hread, ?_, ?_⟩
  · exact ((Json.coerce_sound pageSchema_built pageSchema_defaultsStand _ _).1 _ hread).2.2
  · rcases (Json.coerce_sound pageSchema_built pageSchema_defaultsStand _ _).2.1 _ hrefused with h | ⟨-, heq⟩
    · exact h
    · exact absurd heq (by simp)

/-- At an object type any value is refused, also an empty object, although nothing in it is wrong. -/
theorem refused_at_output_type : pageSchema.Built ∧ pageSchema.DefaultsStand ∧
    Json.coerce pageSchema (.object []) (.named "Query") = .error (.notInputType "Query") ∧
    ¬ Json.Violates pageSchema (.object []) (.named "Query") := by
  refine ⟨pageSchema_built, pageSchema_defaultsStand, rfl, fun h => ?_⟩
  have hquery : Dict.get? pageSchema.types "Query" = some (TypeDef.ofFields "Query" [("a", .named "String")]) := rfl
  cases h with
  | scalar hd => exact absurd (hquery.symm.trans hd) (by simp [TypeDef.ofFields])
  | enum hd => exact absurd (hquery.symm.trans hd) (by simp [TypeDef.ofFields])
  | leaf hd => exact absurd (hquery.symm.trans hd) (by simp [TypeDef.ofFields])
  | unknownField hd => exact absurd (hquery.symm.trans hd) (by simp [TypeDef.ofFields])
  | missingField hd => exact absurd (hquery.symm.trans hd) (by simp [TypeDef.ofFields])
  | field hd => exact absurd (hquery.symm.trans hd) (by simp [TypeDef.ofFields])

end GraphQL
