import GraphQL.Coercion.Input
import GraphQL.Coercion.Literal
import GraphQL.Proofs.Schema.Built

/-!
# Values written inline

A value that is sent for a variable can be written inline, as a literal (`Json.literalAt`).  The two mean the same but for
two differences: a literal may have fields that its input object does not know, which are dropped, and its integers become
doubles where a `Float` is wanted.  So a literal means what the value means from which unknown fields are dropped and
whose integers are doubles there (`Json.inlineAt`), and it means what the value itself means exactly if nothing of this
applies, or it means nothing at all (`Json.valueAt?_literalAt`, in the module on agreement).
-/

namespace GraphQL

/-! ### Wanted types -/

/-- The type of the items where a list is wanted. -/
def TypeRef.item? : TypeRef → Option TypeRef
  | .nonNull type => type.item?
  | .list item => some item
  | .named _ => none

/-- A single value in as many lists as the type has. -/
def TypeRef.wrap : TypeRef → Json → Json
  | .nonNull type, v => type.wrap v
  | .list item, v => .array [item.wrap v]
  | .named _, v => v

namespace Schema

/-- Whether the name of an enum value is wanted. -/
def wantsEnum (s : Schema) (wanted : Option TypeRef) : Bool :=
  wanted.any fun type => s.typeKind? type.innermost = some .enum

/-- Whether a `Float` is wanted. -/
def wantsFloat (s : Schema) (wanted : Option TypeRef) : Bool :=
  wanted.any fun type => type.innermost = "Float" ∧ s.typeKind? "Float" = some .scalar

/-- The input object that is wanted. -/
def wantedObject? (s : Schema) (wanted : Option TypeRef) : Option InputObjectDef :=
  wanted.bind fun type =>
    match Dict.get? s.types type.innermost with
    | some (.inputObject d) => some d
    | _ => none

end Schema

/-- The type that is wanted for a field. -/
def InputObjectDef.type? (d : InputObjectDef) (field : String) : Option TypeRef :=
  (Dict.get? d.fields field).map InputFieldDef.type

/-! ### Literals of values -/

namespace Json

mutual

/-- The literal of a value, where a type or no particular one is wanted.  Strings are written as names where an enum is
wanted. -/
def literalAt (s : Schema) : Json → Option TypeRef → Literal
  | .null, _ => .null
  | .bool b, _ => .bool b
  | .number (.int i), _ => .int i
  | .number (.double d), _ => .float d
  | .string text, wanted => if s.wantsEnum wanted then .enumValue text else .string text
  | .array items, wanted => .list (literalItems s items (wanted.bind TypeRef.item?))
  | .object fields, wanted => .object (literalFields s fields (s.wantedObject? wanted))

/-- The literals of items. -/
def literalItems (s : Schema) : List Json → Option TypeRef → List Literal
  | [], _ => []
  | item :: rest, wanted => literalAt s item wanted :: literalItems s rest wanted

/-- The literals of fields, with their names at no particular place of the source. -/
def literalFields (s : Schema) : List (String × Json) → Option InputObjectDef → List (Name × Literal)
  | [], _ => []
  | (name, v) :: rest, d? => (⟨name, .empty 0⟩, literalAt s v (d?.bind (·.type? name))) :: literalFields s rest d?

end

mutual

/-- What is left of a value when it is written inline: the known fields of input objects, and doubles instead of integers
where a `Float` is wanted. -/
def inlineAt (s : Schema) : Json → Option TypeRef → Json
  | .number (.int i), wanted => .number (if s.wantsFloat wanted then .double (Double.ofInt i) else .int i)
  | .array items, wanted => .array (inlineItems s items (wanted.bind TypeRef.item?))
  | .object fields, wanted => .object (inlineFields s fields (s.wantedObject? wanted))
  | v, _ => v

/-- What is left of items. -/
def inlineItems (s : Schema) : List Json → Option TypeRef → List Json
  | [], _ => []
  | item :: rest, wanted => inlineAt s item wanted :: inlineItems s rest wanted

/-- What is left of fields. -/
def inlineFields (s : Schema) : List (String × Json) → Option InputObjectDef → List (String × Json)
  | [], _ => []
  | (name, v) :: rest, d? =>
    if d?.any fun d => !Dict.contains d.fields name then inlineFields s rest d?
    else (name, inlineAt s v (d?.bind (·.type? name))) :: inlineFields s rest d?

end

mutual

/-- The keys of objects are distinct, and doubles are finite. -/
def IsProper : Json → Prop
  | .number (.double d) => d.isFinite = true
  | .array items => AreProper items
  | .object fields => (Dict.keys fields).Nodup ∧ HasProper fields
  | _ => True

/-- All items are proper. -/
def AreProper : List Json → Prop
  | [] => True
  | item :: rest => IsProper item ∧ AreProper rest

/-- All values of fields are proper. -/
def HasProper : List (String × Json) → Prop
  | [] => True
  | (_, v) :: rest => IsProper v ∧ HasProper rest

end

/-- What holds of a value if it holds of what stands directly in it holds of all values. -/
theorem rec_mem {P : Json → Prop} (hnull : P .null) (hbool : ∀ b, P (.bool b)) (hnumber : ∀ n, P (.number n))
    (hstring : ∀ text, P (.string text)) (harray : ∀ items, (∀ item ∈ items, P item) → P (.array items))
    (hobject : ∀ fields, (∀ e ∈ fields, P e.2) → P (.object fields)) : ∀ v, P v
  | .null => hnull
  | .bool b => hbool b
  | .number n => hnumber n
  | .string text => hstring text
  | .array items => harray items fun item _ => rec_mem hnull hbool hnumber hstring harray hobject item
  | .object fields => hobject fields fun e he => by
      have : sizeOf e.2 < sizeOf fields := by
        have := List.sizeOf_lt_of_mem he
        obtain ⟨name, v⟩ := e
        simp only [Prod.mk.sizeOf_spec] at this
        dsimp only
        omega
      exact rec_mem hnull hbool hnumber hstring harray hobject e.2

/-! ### Lists of items and of fields -/

variable {s : Schema}

theorem inlineItems_eq_map (items : List Json) (wanted : Option TypeRef) :
    inlineItems s items wanted = items.map (inlineAt s · wanted) := by
  induction items with
  | nil => rfl
  | cons item rest ih => rw [inlineItems, ih, List.map_cons]

theorem isProper_array {items : List Json} : (array items).IsProper ↔ ∀ item ∈ items, item.IsProper := by
  change AreProper items ↔ _
  induction items with
  | nil => simp [AreProper]
  | cons item rest ih => simp [AreProper, ih]

theorem isProper_object {fields : List (String × Json)} :
    (object fields).IsProper ↔ (Dict.keys fields).Nodup ∧ ∀ e ∈ fields, e.2.IsProper := by
  have hfields : HasProper fields ↔ ∀ e ∈ fields, e.2.IsProper := by
    induction fields with
    | nil => simp [HasProper]
    | cons e rest ih =>
      obtain ⟨name, v⟩ := e
      simp only [HasProper, ih, List.mem_cons, forall_eq_or_imp]
  exact and_congr_right fun _ => hfields

/-- Where nothing in particular is wanted, nothing is dropped. -/
theorem inlineAt_none (v : Json) : v.inlineAt s none = v := by
  induction v using rec_mem with
  | hnull => rfl
  | hbool => rfl
  | hnumber n => cases n <;> rfl
  | hstring => rfl
  | harray items ih =>
    change array (inlineItems s items none) = array items
    rw [inlineItems_eq_map, List.map_congr_left ih, List.map_id']
  | hobject fields ih =>
    change object (inlineFields s fields none) = object fields
    congr 1
    induction fields with
    | nil => rfl
    | cons e rest ihrest =>
      obtain ⟨name, v⟩ := e
      have hv : v.inlineAt s none = v := ih (name, v) List.mem_cons_self
      simp only [inlineFields, Option.any_none, Bool.false_eq_true, if_false, Option.bind_none, hv,
        ihrest fun e he => ih e (List.mem_cons_of_mem _ he)]

theorem inlineFields_none (fields : List (String × Json)) : inlineFields s fields none = fields :=
  object.inj (inlineAt_none (s := s) (.object fields))

theorem inlineItems_none (items : List Json) : inlineItems s items none = items :=
  array.inj (inlineAt_none (s := s) (.array items))

end Json

/-! ### Outcomes -/

/-- An outcome without the reason for its failure, of a function of an outcome. -/
theorem Except.toOption_map {ε α β : Type} (x : Except ε α) (f : α → β) : (x.map f).toOption = x.toOption.map f := by
  cases x <;> rfl

/-- The outcomes of a list of steps. -/
theorem List.toOption_mapM {ε α β : Type} (f : α → Except ε β) (xs : List α) :
    (xs.mapM f).toOption = xs.mapM fun x => (f x).toOption := by
  induction xs with
  | nil => rfl
  | cons x rest ih =>
    rw [List.mapM_cons, List.mapM_cons, ← ih]
    cases f x with
    | error => rfl
    | ok y => cases rest.mapM f <;> rfl

/-- Two runs over a list, of which the second goes through wherever the first does.  If they find the same, counted by `k`,
then what follows from finding the same at one place holds at all of them. -/
theorem List.exists_mapM_ok {ε α β γ : Type} {f g : α → Except ε β} {k : β → Option γ} {P : α → Prop} {xs : List α}
    (h : ∀ x ∈ xs, ∀ y, f x = .ok y → ∃ y', g x = .ok y' ∧ (k y).isSome = (k y').isSome ∧ (k y = k y' → P x))
    {ys : List β} (hys : xs.mapM f = .ok ys) :
    ∃ ys', xs.mapM g = .ok ys' ∧ (ys.filterMap k = ys'.filterMap k → ∀ x ∈ xs, P x) := by
  induction xs generalizing ys with
  | nil => exact ⟨[], rfl, fun _ x hx => absurd hx List.not_mem_nil⟩
  | cons x rest ih =>
    rw [List.mapM_cons] at hys
    cases hy : f x with
    | error e =>
      rw [hy] at hys
      exact absurd hys (by simp [bind, Except.bind])
    | ok y =>
      cases hrest : rest.mapM f with
      | error e =>
        rw [hy, hrest] at hys
        exact absurd hys (by simp [bind, Except.bind])
      | ok zs =>
        rw [hy, hrest] at hys
        obtain rfl : y :: zs = ys := Except.ok.inj hys
        obtain ⟨y', hy', hsome, hP⟩ := h x List.mem_cons_self y hy
        obtain ⟨zs', hzs', hall⟩ := ih (fun x hx => h x (List.mem_cons_of_mem _ hx)) hrest
        refine ⟨y' :: zs', by rw [List.mapM_cons, hy', hzs']; rfl, fun heq => ?_⟩
        have hsplit : k y = k y' ∧ zs.filterMap k = zs'.filterMap k := by
          rw [List.filterMap_cons, List.filterMap_cons] at heq
          cases hk : k y <;> cases hk' : k y' <;> rw [hk, hk'] at heq hsome
          · exact ⟨rfl, heq⟩
          · exact absurd hsome (by simp)
          · exact absurd hsome (by simp)
          · obtain ⟨rfl, hrest⟩ := List.cons.inj heq
            exact ⟨rfl, hrest⟩
        exact List.forall_mem_cons.2 ⟨hP hsplit.1, hall hsplit.2⟩

namespace TypeRef

variable {m : Type → Type} [Monad m]

/-- A single value is read at the innermost type. -/
theorem peel_none [LawfulMonad m] (atName : String → m Json) (type : TypeRef) :
    peel atName none type = type.wrap <$> atName type.innermost := by
  induction type with
  | named name => exact (id_map _).symm
  | list item ih =>
    change (do return Json.array [← peel atName none item]) = _
    rw [ih, bind_pure_comp, Functor.map_map]
    rfl
  | nonNull type ih => exact ih

/-- The items of a list are read at their type if the type has lists, and otherwise they stand for a single value. -/
theorem peel_some (atName : String → m Json) (read : TypeRef → m Json) (type : TypeRef) :
    peel atName (some read) type = match type.item? with
      | some item => read item
      | none => atName type.innermost := by
  induction type with
  | named name => rfl
  | list item ih => rfl
  | nonNull type ih => exact ih

theorem wrap_inj {type : TypeRef} {v w : Json} (h : type.wrap v = type.wrap w) : v = w := by
  induction type generalizing v w with
  | named name => exact h
  | list item ih => exact ih (List.cons.inj (Json.array.inj h)).1
  | nonNull type ih => exact ih h

theorem toOption_map_wrap (type : TypeRef) (x : Except CoercionError Json) :
    (type.wrap <$> x).toOption = type.wrap <$> x.toOption :=
  Except.toOption_map x type.wrap

end TypeRef

/-! ### Literals without a wanted type -/

namespace Dict

variable {α : Type}

theorem insert_of_not_mem {d : Dict α} {key : String} (h : key ∉ keys d) (value : α) :
    d.insert key value = d ++ [(key, value)] := by
  induction d with
  | nil => rfl
  | cons e rest ih =>
    obtain ⟨k, v⟩ := e
    obtain ⟨hne, hrest⟩ := not_or.1 (mt List.mem_cons.2 h)
    exact (if_neg (Ne.symm hne)).trans (congrArg _ (ih hrest))

/-- Entries with distinct keys are a dictionary. -/
theorem ofEntries_of_nodup {entries : List (String × α)} (h : (keys entries).Nodup) : ofEntries entries = entries := by
  have hfold : ∀ (entries d : Dict α), (keys (d ++ entries)).Nodup →
      entries.foldl (fun d e => d.insert e.1 e.2) d = d ++ entries := by
    intro entries
    induction entries with
    | nil => exact fun d _ => (List.append_nil d).symm
    | cons e rest ih =>
      intro d hd
      have hkey : e.1 ∉ keys d := by
        intro hmem
        unfold keys at hd hmem
        rw [List.map_append, List.map_cons, List.nodup_append] at hd
        exact hd.2.2 _ hmem _ List.mem_cons_self rfl
      rw [List.foldl_cons, insert_of_not_mem hkey, ih _ (by rwa [List.append_assoc]), List.append_assoc]
      rfl
  exact hfold entries [] h

end Dict

namespace Json

variable {s : Schema}

/-- A literal that no type restricts has the value that it is the literal of. -/
theorem untyped?_literalAt {v : Json} (h : v.IsProper) : (v.literalAt s none).untyped? = some v := by
  induction v using rec_mem with
  | hnull => rfl
  | hbool => rfl
  | hnumber n =>
    cases n with
    | int i => rfl
    | double d => exact congrArg some (if_pos (show d.isFinite = true from h))
  | hstring => rfl
  | harray items ih =>
    rw [isProper_array] at h
    have hitems : Literal.untypedItems? (literalItems s items none) = some items := by
      induction items with
      | nil => rfl
      | cons item rest ihrest =>
        rw [literalItems, Literal.untypedItems?, ih item List.mem_cons_self (h item List.mem_cons_self),
          ihrest (fun i hi => ih i (List.mem_cons_of_mem _ hi)) fun i hi => h i (List.mem_cons_of_mem _ hi)]
        rfl
    change (Literal.untypedItems? (literalItems s items none)).map array = _
    rw [hitems]
    rfl
  | hobject fields ih =>
    rw [isProper_object] at h
    have hfields : Literal.untypedFields? (literalFields s fields none) = some fields := by
      have hproper := h.2
      clear h
      induction fields with
      | nil => rfl
      | cons e rest ihrest =>
        obtain ⟨name, v⟩ := e
        have hv := ih (name, v) List.mem_cons_self (hproper _ List.mem_cons_self)
        rw [literalFields, Literal.untypedFields?, Option.bind_none, hv,
          ihrest (fun e he => ih e (List.mem_cons_of_mem _ he)) fun e he => hproper e (List.mem_cons_of_mem _ he)]
        rfl
    change (Literal.untypedFields? (literalFields s fields none)).map (fun entries => object (Dict.ofEntries entries)) = _
    rw [hfields, Option.map_some, Dict.ofEntries_of_nodup h.1]

end Json

end GraphQL
