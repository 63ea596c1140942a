import GraphQL.Proofs.Document.Loops

/-!
# Reading types, values and directives

Types, values, arguments and directives are read without complaints exactly if they are spelled in valid tokens.
Readers go on as long as they can, so what is spelled is read if what stands after it cannot belong to it.
-/

namespace GraphQL

open Grammar GraphQL.Parser

-- the readers have many steps, each of which is an instance of `Parser.Grows`
set_option synthInstance.maxSize 100000

variable {lines : LineIndex} {ts ts₁ ts' : List Token}

/-! ### Types -/

/-- Reads the exclamation mark of a type. -/
private theorem reads_bang {core ty : TypeNode} :
    Reads lines (do
      if ← atPunctuator .bang then
        advance
        return .nonNull core
      else return core) ts ty ts' ↔
    Ready ts' ∧ ((Sign .bang ts ts' ∧ core.nonNull = ty) ∨
      (kindOf ts ≠ .punctuator .bang ∧ core = ty ∧ ts = ts')) := by
  simp only [reads_atPunctuator_bind, decide_eq_true_eq, reads_ite, reads_step, reads_pure]
  constructor
  · rintro (⟨_, hbang, hready, rfl, rfl⟩ | ⟨hnext, hready, rfl, rfl⟩)
    · exact ⟨hready, .inl ⟨hbang, rfl⟩⟩
    · exact ⟨hready, .inr ⟨hnext, rfl, rfl⟩⟩
  · rintro ⟨hready, ⟨hbang, rfl⟩ | ⟨hnext, rfl, rfl⟩⟩
    · exact .inl ⟨_, hbang, hready, rfl, rfl⟩
    · exact .inr ⟨hnext, hready, rfl, rfl⟩

theorem Reads.spells_type {fuel : Nat} {ty : TypeNode} (h : Reads lines (type fuel) ts ty ts') (hfuel : ts.length ≤ fuel) :
    TypeNode.Spelled ts ty ts' ∧ Across Token.Valid ts ts' := by
  induction fuel generalizing ts ty ts' with
  | zero => exact absurd h.ready.length_pos (by omega)
  | succ fuel ih =>
    have hmark : ∀ {core ts₁}, TypeNode.CoreSpelled ts core ts₁ → Across Token.Valid ts ts₁ →
        Ready ts' ∧ ((Sign .bang ts₁ ts' ∧ core.nonNull = ty) ∨
          (kindOf ts₁ ≠ .punctuator .bang ∧ core = ty ∧ ts₁ = ts')) →
        TypeNode.Spelled ts ty ts' ∧ Across Token.Valid ts ts' := by
      rintro core ts₁ hcore hvalid ⟨-, ⟨hbang, rfl⟩ | ⟨-, rfl, rfl⟩⟩
      · exact ⟨.nonNull hcore hbang, hvalid.trans hbang.valid⟩
      · exact ⟨.nullable hcore, hvalid⟩
    unfold type at h
    rw [reads_atPunctuator_bind] at h
    simp only [decide_eq_true_eq, reads_ite, reads_step, reads_name_bind, pure_bind, reads_bang] at h
    obtain ⟨ts₁, hopen, h⟩ | ⟨-, name, ts₁, hname, h⟩ := h
    · obtain ⟨item, ts₂, hitem, h⟩ := h.of_bind
      rw [reads_expectPunctuator_bind] at h
      obtain ⟨ts₃, hclose, h⟩ := h
      obtain ⟨hitem, hvalid⟩ := ih hitem (by have := hopen.takes.length_lt; omega)
      exact hmark (.list ⟨hopen, hitem, hclose⟩) (hopen.valid.trans (hvalid.trans hclose.valid)) (reads_bang.1 h)
    · exact hmark (.named hname) hname.valid h

theorem TypeNode.Spelled.reads {fuel : Nat} {ty : TypeNode} (h : TypeNode.Spelled ts ty ts') (hfine : Fine ts)
    (hnext : kindOf ts' ≠ .punctuator .bang) (hfuel : ts.length ≤ fuel) : Reads lines (type fuel) ts ty ts' := by
  induction fuel generalizing ts ty ts' with
  | zero => exact absurd h.takes.length_lt (by omega)
  | succ fuel ih =>
    -- the core is read, and then whether there is an exclamation mark
    obtain ⟨core, ts₁, hcore, hmark⟩ : ∃ core ts₁, TypeNode.CoreSpelled ts core ts₁ ∧
        ((Sign .bang ts₁ ts' ∧ core.nonNull = ty) ∨ (kindOf ts₁ ≠ .punctuator .bang ∧ core = ty ∧ ts₁ = ts')) := by
      cases h with
      | nullable hcore => exact ⟨_, _, hcore, .inr ⟨hnext, rfl, rfl⟩⟩
      | nonNull hcore hbang => exact ⟨_, _, hcore, .inl ⟨hbang, rfl⟩⟩
    have hready := (hfine.of_takes h.takes).ready
    unfold type
    rw [reads_atPunctuator_bind]
    simp only [decide_eq_true_eq, reads_ite, reads_step, reads_name_bind, pure_bind, reads_bang]
    cases hcore with
    | named hname => exact .inr ⟨by rw [hname.kindOf]; nofun, _, _, hname, hready, hmark⟩
    | list hlist =>
      obtain ⟨hopen, hitem, hclose⟩ := hlist
      refine .inl ⟨_, hopen, (ih hitem (hfine.of_takes hopen.takes) ?_ ?_).bind ?_⟩
      · rw [hclose.kindOf]
        nofun
      · have := hopen.takes.length_lt
        omega
      · rw [reads_expectPunctuator_bind]
        exact ⟨_, hclose, reads_bang.2 ⟨hready, hmark⟩⟩

/-! ### Values -/

section

variable {β : Type} {y : β}

theorem reads_intLiteral_bind {t : Token} {f : Literal → Parser β} [∀ v, Grows (f v)] :
    Reads lines (intLiteral t >>= f) ts y ts' ↔
      IntRange.int64.holds (intOfText t.text) = true ∧ Reads lines (f (.int (intOfText t.text))) ts y ts' := by
  unfold intLiteral
  by_cases hholds : IntRange.int64.holds (intOfText t.text) = true
  · simp [hholds]
  · simp [hholds, not_reads_report_bind]

theorem reads_stringLiteral_bind {t : Token} {f : Literal → Parser β} [∀ v, Grows (f v)] :
    Reads lines (stringLiteral t >>= f) ts y ts' ↔
      ∃ v, stringValue? t.text = some v ∧ Reads lines (f (.string v)) ts y ts' := by
  unfold stringLiteral
  cases stringValue? t.text with
  | none => simp [not_reads_report_bind]
  | some v => simp

end

/-- What a value is read from, by its first token. -/
inductive ReadsValue (lines : LineIndex) (isConst : Bool) (fuel : Nat) : Spelling Literal
  | var {ts ts₁ name ts'} (hconst : isConst = false) (hdollar : Sign .dollar ts ts₁)
      (h : Name.Spelled ts₁ name ts') : ReadsValue lines isConst fuel ts (.variable name) ts'
  | token {t v ts} (h : t.Spells v) (hvalid : t.Valid) : ReadsValue lines isConst fuel (t :: ts) v ts
  | list {ts items ts'} (h : Enclosed .openBracket .closeBracket (Reads lines (listItems isConst fuel)) ts items ts') :
      ReadsValue lines isConst fuel ts (.list items) ts'
  | object {ts fields ts'} (h : Enclosed .openBrace .closeBrace (Reads lines (objectFields isConst fuel)) ts fields ts') :
      ReadsValue lines isConst fuel ts (.object fields) ts'

theorem reads_value_succ {isConst : Bool} {fuel : Nat} {v : Literal} :
    Reads lines (value isConst (fuel + 1)) ts v ts' ↔ Ready ts' ∧ ReadsValue lines isConst fuel ts v ts' := by
  constructor
  · intro h
    have hready := h.ready
    obtain ⟨t, rest, rfl⟩ := hready.exists_cons
    have hformed := hready.formed t List.mem_cons_self
    refine ⟨h.ready_rest, ?_⟩
    unfold value at h
    rw [reads_current_bind] at h
    split at h
    · rename_i hkind
      rw [reads_ite] at h
      obtain ⟨-, h⟩ | ⟨hconst, h⟩ := h
      · exact absurd h not_reads_unexpected_bind
      · simp only [reads_advance_bind (Token.proper_of_punctuator hkind), reads_name_bind, reads_pure] at h
        obtain ⟨name, ts₁, hname, -, rfl, rfl⟩ := h
        exact .var (by simpa using hconst) ⟨hkind⟩ hname
    · rename_i hkind
      rw [reads_intLiteral_bind] at h
      obtain ⟨hholds, h⟩ := h
      have hspells := (hformed.spells_int_iff hkind).2 rfl
      rw [reads_advance_bind hspells.proper, reads_pure] at h
      obtain ⟨-, rfl, rfl⟩ := h
      exact .token hspells ((hformed.valid_int_iff hkind).2 hholds)
    · rename_i hkind
      have hspells := (hformed.spells_float_iff hkind).2 rfl
      rw [reads_advance_bind hspells.proper, reads_pure] at h
      obtain ⟨-, rfl, rfl⟩ := h
      exact .token hspells ⟨by simp [hkind], by simp [hkind], by simp [hkind]⟩
    · rename_i hkind
      rw [reads_stringLiteral_bind] at h
      obtain ⟨value, hvalue, h⟩ := h
      have hspells := (Token.spells_string_iff hkind).2 ⟨value, hvalue, rfl⟩
      rw [reads_advance_bind hspells.proper, reads_pure] at h
      obtain ⟨-, rfl, rfl⟩ := h
      exact .token hspells ⟨by simp [hkind], by simp [hkind], fun _ => by simp [hvalue]⟩
    · rename_i hkind
      have hspells := (Token.spells_blockString_iff hkind).2 rfl
      rw [reads_advance_bind hspells.proper, reads_pure] at h
      obtain ⟨-, rfl, rfl⟩ := h
      exact .token hspells ⟨by simp [hkind], by simp [hkind], by simp [hkind]⟩
    · rename_i hkind
      rw [reads_advance_bind (Token.proper_of_name hkind), reads_pure] at h
      obtain ⟨-, rfl, rfl⟩ := h
      exact .token ((Token.spells_name_iff hkind).2 rfl) (Token.valid_of_name hkind)
    · rename_i hkind
      rw [reads_advance_bind (Token.proper_of_punctuator hkind)] at h
      obtain ⟨items, ts₁, hitems, h⟩ := h.of_bind
      simp only [reads_expectPunctuator_bind, reads_pure] at h
      obtain ⟨ts₂, hclose, -, rfl, rfl⟩ := h
      exact .list ⟨⟨hkind⟩, hitems, hclose⟩
    · rename_i hkind
      rw [reads_advance_bind (Token.proper_of_punctuator hkind)] at h
      obtain ⟨fields, ts₁, hfields, h⟩ := h.of_bind
      simp only [reads_expectPunctuator_bind, reads_pure] at h
      obtain ⟨ts₂, hclose, -, rfl, rfl⟩ := h
      exact .object ⟨⟨hkind⟩, hfields, hclose⟩
    · exact absurd h not_reads_unexpected_bind
  · rintro ⟨hready, h⟩
    unfold value
    cases h with
    | var hconst hdollar hname =>
      obtain ⟨hkind⟩ := hdollar
      rw [reads_current_bind]
      simp only [hkind, hconst, Bool.false_eq_true, if_false, reads_advance_bind (Token.proper_of_punctuator hkind),
        reads_name_bind, reads_pure]
      exact ⟨_, _, hname, hready, rfl, rfl⟩
    | token hspells hvalid =>
      rw [reads_current_bind]
      have hproper := hspells.proper
      cases hspells with
      | int hkind hi =>
        simp only [hkind]
        rw [reads_intLiteral_bind, reads_advance_bind hproper, reads_pure, hi.intOfText_eq]
        exact ⟨hi.intOfText_eq ▸ (hproper.formed.valid_int_iff hkind).1 hvalid, hready, rfl, rfl⟩
      | float hkind hnumber =>
        simp only [hkind]
        rw [reads_advance_bind hproper, reads_pure, hnumber.read?_eq]
        exact ⟨hready, rfl, rfl⟩
      | string hkind hvalue =>
        simp only [hkind]
        rw [reads_stringLiteral_bind]
        refine ⟨_, hvalue, ?_⟩
        rw [reads_advance_bind hproper, reads_pure]
        exact ⟨hready, rfl, rfl⟩
      | blockString hkind =>
        simp only [hkind]
        rw [reads_advance_bind hproper, reads_pure]
        exact ⟨hready, rfl, rfl⟩
      | constant hkind h =>
        have hname := (Token.spells_name_iff hkind).1 (.constant hkind h)
        simp only [hkind]
        rw [reads_advance_bind hproper, reads_pure]
        exact ⟨hready, hname.symm, rfl⟩
      | enumValue hkind h =>
        have hname := (Token.spells_name_iff hkind).1 (.enumValue hkind h)
        simp only [hkind]
        rw [reads_advance_bind hproper, reads_pure]
        exact ⟨hready, hname.symm, rfl⟩
    | list hlist =>
      obtain ⟨⟨hkind⟩, hitems, hclose⟩ := hlist
      rw [reads_current_bind]
      simp only [hkind, reads_advance_bind (Token.proper_of_punctuator hkind)]
      refine hitems.bind ?_
      rw [reads_expectPunctuator_bind]
      exact ⟨_, hclose, reads_pure.2 ⟨hready, rfl, rfl⟩⟩
    | object hobject =>
      obtain ⟨⟨hkind⟩, hfields, hclose⟩ := hobject
      rw [reads_current_bind]
      simp only [hkind, reads_advance_bind (Token.proper_of_punctuator hkind)]
      refine hfields.bind ?_
      rw [reads_expectPunctuator_bind]
      exact ⟨_, hclose, reads_pure.2 ⟨hready, rfl, rfl⟩⟩

theorem isLoop_listItems (isConst : Bool) : IsLoop .closeBracket (value isConst) (listItems isConst) := fun fuel => by
  rw [listItems]

/-- A value with its name. -/
def Parser.namedValue (isConst : Bool) (fuel : Nat) : Parser (Name × Literal) := do
  let key ← name
  expectPunctuator .colon
  let v ← value isConst fuel
  return (key, v)

private instance (isConst : Bool) (fuel : Nat) : Grows (namedValue isConst fuel) := by
  unfold namedValue
  infer_instance

theorem isLoop_objectFields (isConst : Bool) : IsLoop .closeBrace (namedValue isConst) (objectFields isConst) :=
  fun fuel => by
    rw [objectFields]
    simp only [namedValue, bind_assoc, pure_bind]

private theorem reads_namedValue_iff {isConst : Bool} {fuel : Nat} {x : Name × Literal} :
    Reads lines (namedValue isConst fuel) ts x ts' ↔ ∃ name ts₁ ts₂ v, Name.Spelled ts name ts₁ ∧ Sign .colon ts₁ ts₂ ∧
      Reads lines (value isConst fuel) ts₂ v ts' ∧ x = (name, v) := by
  unfold namedValue
  simp only [reads_name_bind, reads_expectPunctuator_bind]
  constructor
  · rintro ⟨name, ts₁, hname, ts₂, hcolon, h⟩
    obtain ⟨v, ts₃, hv, h⟩ := h.of_bind
    obtain ⟨-, rfl, rfl⟩ := reads_pure.1 h
    exact ⟨name, ts₁, ts₂, v, hname, hcolon, hv, rfl⟩
  · rintro ⟨name, ts₁, ts₂, v, hname, hcolon, hv, rfl⟩
    exact ⟨name, ts₁, hname, ts₂, hcolon, hv.bind (reads_pure.2 ⟨hv.ready_rest, rfl, rfl⟩)⟩

theorem Reads.spells_value {isConst : Bool} {fuel : Nat} {v : Literal} (h : Reads lines (value isConst fuel) ts v ts')
    (hfuel : 2 * ts.length ≤ fuel) : Literal.Spelled isConst ts v ts' ∧ Across Token.Valid ts ts' := by
  induction fuel using Nat.strongRecOn generalizing ts v ts' with
  | ind fuel ih =>
    obtain _ | fuel := fuel
    · exact absurd h.ready.length_pos (by omega)
    obtain ⟨-, h⟩ := reads_value_succ.1 h
    cases h with
    | var hconst hdollar hname => exact ⟨.var hconst hdollar hname, hdollar.valid.trans hname.valid⟩
    | token hspells hvalid => exact ⟨.token hspells, .step hvalid .refl⟩
    | list hlist =>
      obtain ⟨hopen, hitems, hclose⟩ := hlist
      have hlt := hopen.takes.length_lt
      obtain ⟨hmany, hvalid⟩ := hitems.many (Nat.mul_lt_mul_left Nat.two_pos).2 Literal.Spelled.takes
        (fun k hk _ _ _ h hfuel => ih k (by omega) h hfuel) (isLoop_listItems isConst) (Nat.le_refl fuel) (by omega)
      exact ⟨.list ⟨hopen, hmany, hclose⟩, hopen.valid.trans (hvalid.trans hclose.valid)⟩
    | object hobject =>
      obtain ⟨hopen, hfields, hclose⟩ := hobject
      have hlt := hopen.takes.length_lt
      obtain ⟨hmany, hvalid⟩ := hfields.many (R := Literal.FieldSpelled isConst) (Nat.mul_lt_mul_left Nat.two_pos).2 Literal.FieldSpelled.takes
        (fun k hk ts x ts' h hfuel => by
          obtain ⟨name, ts₁, ts₂, v, hname, hcolon, hv, rfl⟩ := reads_namedValue_iff.1 h
          have := hname.takes.length_lt
          have := hcolon.takes.length_lt
          obtain ⟨hv, hvalid⟩ := ih k (by omega) hv (by omega)
          exact ⟨⟨hname, hcolon, hv⟩, hname.valid.trans (hcolon.valid.trans hvalid)⟩)
        (isLoop_objectFields isConst) (Nat.le_refl fuel) (by omega)
      exact ⟨.object ⟨hopen, hmany, hclose⟩, hopen.valid.trans (hvalid.trans hclose.valid)⟩

/-- No value starts where a list ends. -/
theorem Literal.Spelled.not_stopsAt {isConst : Bool} {v : Literal} (h : Literal.Spelled isConst ts v ts') :
    ¬ StopsAt .closeBracket ts := by
  unfold StopsAt
  cases h with
  | var _ hdollar _ => simp [hdollar.kindOf]
  | token hspells =>
    cases hspells with
    | int hkind | float hkind | string hkind | blockString hkind | constant hkind | enumValue hkind =>
      simp [kindOf, hkind]
  | list h =>
    obtain ⟨hopen, -, -⟩ := h
    simp [hopen.kindOf]
  | object h =>
    obtain ⟨hopen, -, -⟩ := h
    simp [hopen.kindOf]

theorem Literal.FieldSpelled.not_stopsAt {isConst : Bool} {x : Name × Literal} (h : Literal.FieldSpelled isConst ts x ts')
    (close : Punctuator) : ¬ StopsAt close ts := by
  obtain ⟨hname, -, -⟩ := h
  simp [StopsAt, hname.kindOf]

theorem Literal.Spelled.reads {isConst : Bool} {fuel : Nat} {v : Literal} (h : Literal.Spelled isConst ts v ts')
    (hfine : Fine ts) (hfuel : 2 * ts.length ≤ fuel) : Reads lines (value isConst fuel) ts v ts' := by
  induction fuel using Nat.strongRecOn generalizing ts v ts' with
  | ind fuel ih =>
    obtain _ | fuel := fuel
    · exact absurd hfine.ready.length_pos (by omega)
    refine reads_value_succ.2 ⟨(hfine.of_takes h.takes).ready, ?_⟩
    cases h with
    | var hconst hdollar hname => exact .var hconst hdollar hname
    | token hspells => exact .token hspells (hfine.valid _ List.mem_cons_self)
    | list hlist =>
      obtain ⟨hopen, hmany, hclose⟩ := hlist
      have hlt := hopen.takes.length_lt
      refine .list ⟨hopen, ?_, hclose⟩
      refine hmany.reads (fun _ => True) (Nat.mul_lt_mul_left Nat.two_pos).2 Literal.Spelled.takes (fun h => ⟨h.not_stopsAt, trivial⟩)
        (fun _ => trivial) (fun k hk _ _ _ h hfine _ hfuel => ih k (by omega) h hfine hfuel) (isLoop_listItems isConst)
        (hfine.of_takes hopen.takes) (.inl hclose.kindOf) (Nat.le_refl fuel) (by omega)
    | object hobject =>
      obtain ⟨hopen, hmany, hclose⟩ := hobject
      have hlt := hopen.takes.length_lt
      refine .object ⟨hopen, ?_, hclose⟩
      refine hmany.reads (fun _ => True) (Nat.mul_lt_mul_left Nat.two_pos).2 Literal.FieldSpelled.takes
        (fun h => ⟨h.not_stopsAt _, trivial⟩) (fun _ => trivial) (fun k hk ts x ts' h hfine _ hfuel => ?_)
        (isLoop_objectFields isConst) (hfine.of_takes hopen.takes) (.inl hclose.kindOf) (Nat.le_refl fuel) (by omega)
      obtain ⟨hname, hcolon, hv⟩ := h
      have := hname.takes.length_lt
      have := hcolon.takes.length_lt
      have hv := ih k (by omega) hv ((hfine.of_takes hname.takes).of_takes hcolon.takes) (by omega)
      exact reads_namedValue_iff.2 ⟨_, _, _, _, hname, hcolon, hv, rfl⟩

/-! ### Arguments -/

/-- Reads an argument. -/
def Parser.argument (fuel : Nat) : Parser Argument := do
  let start ← offset
  let (key, v) ← namedValue false fuel
  return ⟨key, v, ← spanFrom start⟩

private instance (fuel : Nat) : Grows (argument fuel) := by
  unfold argument
  infer_instance

theorem isLoop_argumentList : IsLoop₁ .closeParen argument argumentList := fun fuel => by
  rw [argumentList]
  simp only [argument, namedValue, bind_assoc, pure_bind]

private theorem reads_argument_iff {fuel : Nat} {arg : Argument} :
    Reads lines (argument fuel) ts arg ts' ↔ ∃ name v, Reads lines (namedValue false fuel) ts (name, v) ts' ∧
      arg = ⟨name, v, spanTo ts ts'⟩ := by
  unfold argument
  rw [reads_offset_bind]
  constructor
  · intro h
    obtain ⟨⟨name, v⟩, ts₁, hfield, h⟩ := h.of_bind
    rw [reads_spanFrom_bind] at h
    obtain ⟨-, rfl, rfl⟩ := reads_pure.1 h
    exact ⟨name, v, hfield, rfl⟩
  · rintro ⟨name, v, hfield, rfl⟩
    refine hfield.bind ?_
    rw [reads_spanFrom_bind]
    exact reads_pure.2 ⟨hfield.ready_rest, rfl, rfl⟩

theorem Reads.spells_arguments {fuel : Nat} {args : List Argument} (h : Reads lines (arguments fuel) ts args ts')
    (hfuel : 2 * ts.length ≤ fuel) : Argument.ListSpelled ts args ts' ∧ Across Token.Valid ts ts' := by
  unfold arguments at h
  rw [reads_atPunctuator_bind] at h
  simp only [decide_eq_true_eq, reads_ite, reads_step, reads_pure] at h
  obtain ⟨ts₁, hopen, h⟩ | ⟨-, -, rfl, rfl⟩ := h
  · obtain ⟨args', ts₂, hargs, h⟩ := h.of_bind
    rw [reads_expectPunctuator_bind] at h
    obtain ⟨ts₃, hclose, h⟩ := h
    obtain ⟨-, rfl, rfl⟩ := reads_pure.1 h
    have hlt := hopen.takes.length_lt
    obtain ⟨hne, hmany, hvalid⟩ := hargs.many₁ (R := Argument.Spelled) (Nat.mul_lt_mul_left Nat.two_pos).2 Argument.Spelled.takes
      (fun k _ ts x ts' h hfuel => by
        obtain ⟨name, v, hfield, rfl⟩ := reads_argument_iff.1 h
        obtain ⟨name, ts₁, ts₂, v, hname, hcolon, hv, heq⟩ := reads_namedValue_iff.1 hfield
        cases heq
        have := hname.takes.length_lt
        have := hcolon.takes.length_lt
        obtain ⟨hv, hvalid⟩ := hv.spells_value (by omega)
        exact ⟨⟨⟨hname, hcolon, hv⟩⟩, hname.valid.trans (hcolon.valid.trans hvalid)⟩)
      isLoop_argumentList (Nat.le_refl fuel) (by omega)
    exact ⟨.some ⟨hopen, hmany, hclose⟩ hne, hopen.valid.trans (hvalid.trans hclose.valid)⟩
  · exact ⟨.none, .refl⟩

theorem Argument.ListSpelled.reads {fuel : Nat} {args : List Argument} (h : Argument.ListSpelled ts args ts')
    (hfine : Fine ts) (hnext : kindOf ts' ≠ .punctuator .openParen) (hfuel : 2 * ts.length ≤ fuel) :
    Reads lines (arguments fuel) ts args ts' := by
  unfold arguments
  rw [reads_atPunctuator_bind]
  simp only [decide_eq_true_eq, reads_ite, reads_step, reads_pure]
  cases h with
  | none => exact .inr ⟨hnext, hfine.ready, rfl, rfl⟩
  | some h hne =>
    obtain ⟨hopen, hmany, hclose⟩ := h
    have hlt := hopen.takes.length_lt
    have hopened := hfine.of_takes hopen.takes
    have hready := ((hopened.of_covers (hmany.covers Argument.Spelled.takes)).of_takes hclose.takes).ready
    refine .inl ⟨_, hopen, ?_⟩
    refine Reads.bind ?_ (reads_expectPunctuator_bind.2 ⟨_, hclose, reads_pure.2 ⟨hready, rfl, rfl⟩⟩)
    refine hmany.reads₁ (fun _ => True) (Nat.mul_lt_mul_left Nat.two_pos).2 Argument.Spelled.takes (fun h => ⟨?_, trivial⟩)
      (fun _ => trivial) (fun k _ ts x ts' h hfine _ hfuel => ?_) isLoop_argumentList hne hopened (.inl hclose.kindOf)
      (Nat.le_refl fuel) (by omega)
    · obtain ⟨h⟩ := h
      exact h.not_stopsAt _
    · obtain ⟨⟨hname, hcolon, hv⟩⟩ := h
      have := hname.takes.length_lt
      have := hcolon.takes.length_lt
      have hv : Reads lines (Parser.value false k) _ _ ts' :=
        hv.reads ((hfine.of_takes hname.takes).of_takes hcolon.takes) (by omega)
      exact reads_argument_iff.2 ⟨_, _, reads_namedValue_iff.2 ⟨_, _, _, _, hname, hcolon, hv, rfl⟩, rfl⟩

/-! ### Directives -/

theorem Reads.spells_directives {fuel : Nat} {ds : List Directive} (h : Reads lines (directives fuel) ts ds ts')
    (hfuel : 2 * ts.length ≤ fuel) : Many Directive.Spelled ts ds ts' ∧ Across Token.Valid ts ts' := by
  induction fuel generalizing ts ds with
  | zero => exact absurd h.ready.length_pos (by omega)
  | succ fuel ih =>
    unfold directives at h
    rw [reads_atPunctuator_bind] at h
    simp only [decide_eq_true_eq, reads_ite, reads_offset_bind, reads_step, reads_name_bind, reads_pure] at h
    obtain ⟨ts₁, hat, name, ts₂, hname, h⟩ | ⟨-, -, rfl, rfl⟩ := h
    · obtain ⟨args, ts₃, hargs, h⟩ := h.of_bind
      rw [reads_spanFrom_bind] at h
      obtain ⟨rest, ts₄, hrest, h⟩ := h.of_bind
      obtain ⟨-, rfl, rfl⟩ := reads_pure.1 h
      have := hat.takes.length_lt
      have := hname.takes.length_lt
      obtain ⟨hargs, hvalid⟩ := hargs.spells_arguments (by omega)
      have := hargs.covers.length_le
      obtain ⟨hrest, hvalid'⟩ := ih hrest (by omega)
      exact ⟨.cons ⟨hat, hname, hargs⟩ hrest, hat.valid.trans (hname.valid.trans (hvalid.trans hvalid'))⟩
    · exact ⟨.nil, .refl⟩

/-- Directives are read up to what does not start with their sign. -/
theorem Grammar.Many.reads_directives {fuel : Nat} {ds : List Directive} (h : Many Directive.Spelled ts ds ts')
    (hfine : Fine ts) (hnext : kindOf ts' ≠ .punctuator .atSign ∧ kindOf ts' ≠ .punctuator .openParen)
    (hfuel : 2 * ts.length ≤ fuel) : Reads lines (directives fuel) ts ds ts' := by
  induction h generalizing fuel with
  | nil =>
    obtain _ | fuel := fuel
    · exact absurd hfine.ready.length_pos (by omega)
    unfold directives
    rw [reads_atPunctuator_bind]
    simp only [decide_eq_true_eq, reads_ite, reads_pure]
    exact .inr ⟨hnext.1, hfine.ready, trivial, trivial⟩
  | @cons ts d ts₁ ds ts' head tail ih =>
    obtain _ | fuel := fuel
    · exact absurd hfine.ready.length_pos (by omega)
    have hlt := head.takes.length_lt
    have hrest := ih (hfine.of_takes head.takes) hnext (by omega : 2 * _ ≤ fuel)
    -- no parenthesis stands after a directive
    have hafter : kindOf ts₁ ≠ .punctuator .openParen := by
      cases tail with
      | nil => exact hnext.2
      | cons head' _ =>
        obtain ⟨hat, -, -⟩ := head'
        rw [hat.kindOf]
        nofun
    obtain ⟨hat, hname, hargs⟩ := head
    have := hat.takes.length_lt
    have := hname.takes.length_lt
    unfold directives
    rw [reads_atPunctuator_bind]
    simp only [decide_eq_true_eq, reads_ite, reads_offset_bind, reads_step, reads_name_bind]
    refine .inl ⟨_, hat, _, _, hname, Reads.bind (hargs.reads ?_ hafter (by omega)) ?_⟩
    · exact (hfine.of_takes hat.takes).of_takes hname.takes
    · rw [reads_spanFrom_bind]
      exact hrest.bind (reads_pure.2 ⟨hrest.ready_rest, rfl, rfl⟩)

end GraphQL
