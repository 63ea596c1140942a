import GraphQL.Proofs.Document.Selections

/-!
# Reading definitions

Operations with their variables, and fragments.
-/

namespace GraphQL

open Grammar GraphQL.Parser

set_option synthInstance.maxSize 100000

variable {lines : LineIndex} {ts ts₁ ts₂ ts' : List Token} {fuel : Nat}

/-! ### Variables -/

theorem VariableDefinition.DefaultSpelled.start {v : Literal} (h : VariableDefinition.DefaultSpelled ts v ts') :
    kindOf ts = .punctuator .equals := by
  obtain ⟨hequals, -⟩ := h
  exact hequals.kindOf

theorem VariableDefinition.Spelled.start {v : VariableDefinition} (h : VariableDefinition.Spelled lines ts v ts') :
    kindOf ts = .punctuator .dollar := by
  obtain ⟨hdollar, -, -, -, -, -⟩ := h
  exact hdollar.kindOf

/-- No declaration of a variable goes on here. -/
structure VariableEnds (ts : List Token) : Prop where
  bang : kindOf ts ≠ .punctuator .bang
  equals : kindOf ts ≠ .punctuator .equals
  atSign : kindOf ts ≠ .punctuator .atSign
  openParen : kindOf ts ≠ .punctuator .openParen

theorem VariableEnds.of_stopsAt (h : StopsAt .closeParen ts) : VariableEnds ts := by
  rcases h with h | h <;> exact ⟨by simp [h], by simp [h], by simp [h], by simp [h]⟩

theorem Reads.spells_variableDefinition {v : VariableDefinition} (h : Reads lines (variableDefinition fuel) ts v ts')
    (hfuel : 2 * ts.length ≤ fuel) : VariableDefinition.Spelled lines ts v ts' ∧ Across Token.Valid ts ts' := by
  unfold variableDefinition at h
  simp only [reads_offset_bind, reads_location_bind, reads_expectPunctuator_bind, reads_name_bind] at h
  obtain ⟨ts₁, hdollar, name, ts₂, hname, ts₃, hcolon, h⟩ := h
  obtain ⟨ty, ts₄, hty, h⟩ := h.of_bind
  have := hdollar.takes.length_lt
  have := hname.takes.length_lt
  have := hcolon.takes.length_lt
  obtain ⟨hty, hvalid⟩ := hty.spells_type (by omega)
  have := hty.takes.length_lt
  have hvalid := hdollar.valid.trans (hname.valid.trans (hcolon.valid.trans hvalid))
  -- the declaration ends with its directives
  have hend : ∀ {default ts₅}, Optional VariableDefinition.DefaultSpelled ts₄ default ts₅ → Across Token.Valid ts₄ ts₅ →
      Reads lines (do
        let ds ← directives fuel
        return ⟨name, ty, default, ds, ← spanFrom (startOf ts), lines.location (startOf ts)⟩) ts₅ v ts' →
      VariableDefinition.Spelled lines ts v ts' ∧ Across Token.Valid ts ts' := by
    intro default ts₅ hdefault hvalid' h
    obtain ⟨ds, ts₆, hds, h⟩ := h.of_bind
    rw [reads_spanFrom_bind] at h
    obtain ⟨-, rfl, rfl⟩ := reads_pure.1 h
    have := (hdefault.covers VariableDefinition.DefaultSpelled.takes).length_le
    obtain ⟨hds, hvalid''⟩ := hds.spells_directives (by omega)
    exact ⟨⟨hdollar, hname, hcolon, hty, hdefault, hds⟩, hvalid.trans (hvalid'.trans hvalid'')⟩
  rw [reads_atPunctuator_bind] at h
  simp only [decide_eq_true_eq, reads_ite, reads_step, pure_bind] at h
  obtain ⟨ts₅, hequals, h⟩ | ⟨-, h⟩ := h
  · obtain ⟨w, ts₆, hw, h⟩ := h.of_bind
    have := hequals.takes.length_lt
    obtain ⟨hw, hvalid'⟩ := hw.spells_value (by omega)
    exact hend (.some ⟨hequals, hw⟩) (hequals.valid.trans hvalid') h
  · exact hend .none .refl h

theorem VariableDefinition.Spelled.reads {v : VariableDefinition} (h : VariableDefinition.Spelled lines ts v ts')
    (hfine : Fine ts) (hends : VariableEnds ts') (hfuel : 2 * ts.length ≤ fuel) :
    Reads lines (variableDefinition fuel) ts v ts' := by
  obtain ⟨hdollar, hname, hcolon, hty, hdefault, hds⟩ := h
  rename_i ts₁ name ts₂ ts₃ ty ts₄ default ts₅ ds
  have := hdollar.takes.length_lt
  have := hname.takes.length_lt
  have := hcolon.takes.length_lt
  have := hty.takes.length_lt
  have hcovers := hdefault.covers VariableDefinition.DefaultSpelled.takes
  have := hcovers.length_le
  have hfine₃ := ((hfine.of_takes hdollar.takes).of_takes hname.takes).of_takes hcolon.takes
  have hfine₄ := hfine₃.of_takes hty.takes
  have hfine₅ := hfine₄.of_covers hcovers
  have hend : Reads lines (do
      let ds ← Parser.directives fuel
      return ⟨name, ty, default, ds, ← spanFrom (startOf ts), lines.location (startOf ts)⟩) ts₅
      (⟨name, ty, default, ds, spanTo ts ts', lines.location (startOf ts)⟩ : VariableDefinition) ts' := by
    have hds : Reads lines (Parser.directives fuel) ts₅ ds ts' :=
      hds.reads_directives hfine₅ ⟨hends.atSign, hends.openParen⟩ (by omega)
    refine hds.bind ?_
    rw [reads_spanFrom_bind]
    exact reads_pure.2 ⟨hds.ready_rest, rfl, rfl⟩
  unfold variableDefinition
  simp only [reads_offset_bind, reads_location_bind, reads_expectPunctuator_bind, reads_name_bind]
  refine ⟨_, hdollar, _, _, hname, _, hcolon, (hty.reads hfine₃ ?_ (by omega)).bind ?_⟩
  · -- what comes after the type is no exclamation mark
    cases hdefault with
    | some hdefault => simp [hdefault.start]
    | none =>
      rcases Directive.start hds with h | rfl
      · simp [h]
      · exact hends.bang
  · rw [reads_atPunctuator_bind]
    simp only [decide_eq_true_eq, reads_ite, reads_step, pure_bind]
    cases hdefault with
    | none =>
      refine .inr ⟨?_, hend⟩
      rcases Directive.start hds with h | rfl
      · simp [h]
      · exact hends.equals
    | some hdefault =>
      obtain ⟨hequals, hw⟩ := hdefault
      have := hequals.takes.length_lt
      exact .inl ⟨_, hequals, (hw.reads (hfine₄.of_takes hequals.takes) (by omega)).bind hend⟩

theorem isLoop_variableDefinitions : IsLoop .closeParen variableDefinition variableDefinitions := fun fuel => by
  rw [variableDefinitions]

section

variable {β : Type} {k : List VariableDefinition → Parser β} {y : β}

/-- Reads the declarations of variables, if there are any, and goes on. -/
theorem Reads.variables [∀ vs, Grows (k vs)] (h : Reads lines (do
      if ← atPunctuator .openParen then
        advance
        let vs ← variableDefinitions fuel
        expectPunctuator .closeParen
        k vs
      else k []) ts y ts') (hfuel : 2 * ts.length ≤ fuel) :
    ∃ vs ts₁, VariableDefinition.ListSpelled lines ts vs ts₁ ∧ Across Token.Valid ts ts₁ ∧ Reads lines (k vs) ts₁ y ts' := by
  rw [reads_atPunctuator_bind] at h
  simp only [decide_eq_true_eq, reads_ite, reads_step] at h
  obtain ⟨ts₁, hopen, h⟩ | ⟨-, h⟩ := h
  · obtain ⟨vs, ts₂, hvs, h⟩ := h.of_bind
    rw [reads_expectPunctuator_bind] at h
    obtain ⟨ts₃, hclose, h⟩ := h
    have := hopen.takes.length_lt
    obtain ⟨hmany, hvalid⟩ := hvs.many (Nat.mul_lt_mul_left Nat.two_pos).2 VariableDefinition.Spelled.takes
      (fun k _ _ _ _ h hfuel => h.spells_variableDefinition hfuel) isLoop_variableDefinitions (Nat.le_refl fuel) (by omega)
    exact ⟨vs, ts₃, .some ⟨hopen, hmany, hclose⟩, hopen.valid.trans (hvalid.trans hclose.valid), h⟩
  · exact ⟨[], ts, .none, .refl, h⟩

theorem VariableDefinition.ListSpelled.reads [∀ vs, Grows (k vs)] {vs : List VariableDefinition}
    (h : VariableDefinition.ListSpelled lines ts vs ts₁) (hfine : Fine ts) (hnext : kindOf ts₁ ≠ .punctuator .openParen)
    (hfuel : 2 * ts.length ≤ fuel) (hgo : Reads lines (k vs) ts₁ y ts') :
    Reads lines (do
      if ← atPunctuator .openParen then
        advance
        let vs ← variableDefinitions fuel
        expectPunctuator .closeParen
        k vs
      else k []) ts y ts' := by
  rw [reads_atPunctuator_bind]
  simp only [decide_eq_true_eq, reads_ite, reads_step]
  cases h with
  | none => exact .inr ⟨hnext, hgo⟩
  | some h =>
    obtain ⟨hopen, hmany, hclose⟩ := h
    have := hopen.takes.length_lt
    have hvs := hmany.reads VariableEnds (Nat.mul_lt_mul_left Nat.two_pos).2 VariableDefinition.Spelled.takes
      (fun h => ⟨by simp [StopsAt, h.start], by simp [h.start], by simp [h.start], by simp [h.start], by simp [h.start]⟩)
      VariableEnds.of_stopsAt (fun k _ _ _ _ h hfine hends hfuel => h.reads hfine hends hfuel)
      isLoop_variableDefinitions (hfine.of_takes hopen.takes) (.inl hclose.kindOf) (Nat.le_refl fuel) (by omega)
    exact .inl ⟨_, hopen, hvs.bind (reads_expectPunctuator_bind.2 ⟨_, hclose, hgo⟩)⟩

end

/-! ### Operations -/

theorem operationKind?_eq_some {word : String} {kind : OperationKind} :
    operationKind? word = some kind ↔ word = kind.text := by
  unfold operationKind?
  constructor
  · intro h
    split at h
    · cases h
      assumption
    · split at h
      · cases h
        assumption
      · split at h
        · cases h
          assumption
        · cases h
  · rintro rfl
    cases kind <;> rfl

/-- Reads an operation from its variables on. -/
private def operationRest (fuel start : Nat) (kind : OperationKind) (key : Option Name) : Parser Operation := do
  if ← atPunctuator .openParen then
    advance
    let vs ← variableDefinitions fuel
    expectPunctuator .closeParen
    let ds ← directives fuel
    let set ← selectionSet fuel
    return ⟨kind, key, vs, ds, set, ← spanFrom start⟩
  else
    let ds ← directives fuel
    let set ← selectionSet fuel
    return ⟨kind, key, [], ds, set, ← spanFrom start⟩

private theorem reads_operation_iff {kind : OperationKind} {o : Operation} (hkeyword : Keyword kind.text ts ts₁) :
    Reads lines (operation fuel kind) ts o ts' ↔
      (∃ name ts₂, Name.Spelled ts₁ name ts₂ ∧ Reads lines (operationRest fuel (startOf ts) kind (some name)) ts₂ o ts') ∨
      (kindOf ts₁ ≠ .name ∧ Reads lines (operationRest fuel (startOf ts) kind none) ts₁ o ts') := by
  unfold operation operationRest
  rw [reads_offset_bind, reads_advance_keyword hkeyword, reads_atKind_bind]
  simp only [decide_eq_true_eq, reads_ite, pure_bind, reads_name_bind]
  constructor
  · rintro (⟨-, h⟩ | h)
    · exact .inl h
    · exact .inr h
  · rintro (⟨name, ts₂, hname, h⟩ | h)
    · exact .inl ⟨hname.kindOf, name, ts₂, hname, h⟩
    · exact .inr h

theorem Reads.spells_operation {kind : OperationKind} {o : Operation} (hkeyword : Keyword kind.text ts ts₁)
    (h : Reads lines (operation fuel kind) ts o ts') (hfuel : 3 * ts.length ≤ fuel) :
    Definition.Spelled lines ts (.operation o) ts' ∧ Across Token.Valid ts ts' := by
  have := hkeyword.takes.length_lt
  -- the operation ends with its variables, directives and selections
  have hend : ∀ {name ts₂}, Optional Name.Spelled ts₁ name ts₂ → Across Token.Valid ts₁ ts₂ →
      Reads lines (operationRest fuel (startOf ts) kind name) ts₂ o ts' →
      Definition.Spelled lines ts (.operation o) ts' ∧ Across Token.Valid ts ts' := by
    intro name ts₂ hname hvalid h
    unfold operationRest at h
    have := (hname.covers Name.Spelled.takes).length_le
    obtain ⟨vs, ts₃, hvs, hvalid', h⟩ := Reads.variables
      (k := fun vs => do
        let ds ← directives fuel
        let set ← selectionSet fuel
        return (⟨kind, name, vs, ds, set, ← spanFrom (startOf ts)⟩ : Operation)) h (by omega)
    have := hvs.covers.length_le
    obtain ⟨ds, ts₄, set, hds, hset, hvalid'', rfl⟩ := spells_body (fun h hfuel => h.spells_selectionSet hfuel) h (by omega)
    exact ⟨.operation hkeyword hname hvs hds hset, hkeyword.valid.trans (hvalid.trans (hvalid'.trans hvalid''))⟩
  obtain ⟨name, ts₂, hname, h⟩ | ⟨-, h⟩ := (reads_operation_iff hkeyword).1 h
  · exact hend (.some hname) hname.valid h
  · exact hend .none .refl h

theorem VariableDefinition.ListSpelled.start {vs : List VariableDefinition}
    (h : VariableDefinition.ListSpelled lines ts vs ts') : kindOf ts = .punctuator .openParen ∨ ts = ts' := by
  cases h with
  | none => exact .inr rfl
  | some h =>
    obtain ⟨hopen, -, -⟩ := h
    exact .inl hopen.kindOf

/-- Before a selection set there is no name, and no parenthesis. -/
private theorem start_body {ds : List Directive} {set : SelectionSet} (hds : Many Directive.Spelled ts ds ts₁)
    (hset : SelectionSet.Spelled lines ts₁ set ts') : kindOf ts ≠ .name ∧ kindOf ts ≠ .punctuator .openParen := by
  rcases Directive.start hds with h | rfl
  · simp [h]
  · simp [hset.start]

/-- An operation with its keyword is read. -/
theorem Grammar.Keyword.reads_operation {kind : OperationKind} {name : Option Name} {vs : List VariableDefinition}
    {ds : List Directive} {set : SelectionSet} {ts₃ ts₄ : List Token} (hkeyword : Keyword kind.text ts ts₁)
    (hname : Optional Name.Spelled ts₁ name ts₂) (hvs : VariableDefinition.ListSpelled lines ts₂ vs ts₃)
    (hds : Many Directive.Spelled ts₃ ds ts₄) (hset : SelectionSet.Spelled lines ts₄ set ts') (hfine : Fine ts)
    (hfuel : 3 * ts.length ≤ fuel) :
    Reads lines (operation fuel kind) ts ⟨kind, name, vs, ds, set, spanTo ts ts'⟩ ts' := by
  have := hkeyword.takes.length_lt
  have hcovers := hname.covers Name.Spelled.takes
  have := hcovers.length_le
  have := hvs.covers.length_le
  have hfine₂ := (hfine.of_takes hkeyword.takes).of_covers hcovers
  have hstart := start_body hds hset
  have hrest : Reads lines (operationRest fuel (startOf ts) kind name) ts₂ ⟨kind, name, vs, ds, set, spanTo ts ts'⟩ ts' := by
    unfold operationRest
    refine hvs.reads (k := fun vs => do
      let ds ← directives fuel
      let set ← selectionSet fuel
      return (⟨kind, name, vs, ds, set, ← spanFrom (startOf ts)⟩ : Operation)) hfine₂ hstart.2 (by omega) ?_
    exact reads_body (fun h hfine hfuel => h.reads hfine hfuel) hds hset (hfine₂.of_covers hvs.covers) (by omega)
  refine (reads_operation_iff hkeyword).2 ?_
  cases hname with
  | some hname => exact .inl ⟨_, _, hname, hrest⟩
  | none =>
    refine .inr ⟨?_, hrest⟩
    rcases hvs.start with h | rfl
    · simp [h]
    · exact hstart.1

/-! ### Fragments -/

theorem Reads.spells_fragment {f : Fragment} (hkeyword : Keyword "fragment" ts ts₁)
    (h : Reads lines (fragment fuel) ts f ts') (hfuel : 3 * ts.length ≤ fuel) :
    Definition.Spelled lines ts (.fragment f) ts' ∧ Across Token.Valid ts ts' := by
  have := hkeyword.takes.length_lt
  unfold fragment at h
  rw [reads_offset_bind, reads_advance_keyword hkeyword] at h
  simp only [reads_name_bind, reads_ite, reads_expectKeyword_bind] at h
  obtain ⟨name, ts₂, hname, ⟨-, h⟩ | ⟨hne, ts₃, hon, condition, ts₄, hcondition, h⟩⟩ := h
  · exact absurd h not_reads_report_bind
  · have := hname.takes.length_lt
    have := hon.takes.length_lt
    have := hcondition.takes.length_lt
    obtain ⟨ds, ts₅, set, hds, hset, hvalid, rfl⟩ := spells_body (fun h hfuel => h.spells_selectionSet hfuel) h (by omega)
    exact ⟨.fragment hkeyword hname hne hon hcondition hds hset,
      hkeyword.valid.trans (hname.valid.trans (hon.valid.trans (hcondition.valid.trans hvalid)))⟩

/-- A fragment with its keyword is read. -/
theorem Grammar.Keyword.reads_fragment {name condition : Name} {ds : List Directive} {set : SelectionSet}
    {ts₃ ts₄ ts₅ : List Token} (hkeyword : Keyword "fragment" ts ts₁) (hname : Name.Spelled ts₁ name ts₂)
    (hne : name.value ≠ "on") (hon : Keyword "on" ts₂ ts₃) (hcondition : Name.Spelled ts₃ condition ts₄)
    (hds : Many Directive.Spelled ts₄ ds ts₅) (hset : SelectionSet.Spelled lines ts₅ set ts') (hfine : Fine ts)
    (hfuel : 3 * ts.length ≤ fuel) :
    Reads lines (fragment fuel) ts ⟨name, condition, ds, set, spanTo ts ts'⟩ ts' := by
  have := hkeyword.takes.length_lt
  have := hname.takes.length_lt
  have := hon.takes.length_lt
  have := hcondition.takes.length_lt
  have hfine₄ := (((hfine.of_takes hkeyword.takes).of_takes hname.takes).of_takes hon.takes).of_takes hcondition.takes
  unfold fragment
  rw [reads_offset_bind, reads_advance_keyword hkeyword]
  simp only [reads_name_bind, reads_ite, reads_expectKeyword_bind]
  refine ⟨name, _, hname, .inr ⟨hne, _, hon, condition, _, hcondition, ?_⟩⟩
  exact reads_body (fun h hfine hfuel => h.reads hfine hfuel) hds hset hfine₄ (by omega)

/-! ### Definitions -/

theorem Reads.spells_definition? {d? : Option Definition} (h : Reads lines (definition? fuel) ts d? ts')
    (hfuel : 3 * ts.length ≤ fuel) :
    ∃ d, d? = some d ∧ Definition.Spelled lines ts d ts' ∧ Across Token.Valid ts ts' := by
  obtain ⟨t, rest, rfl⟩ := h.ready.exists_cons
  unfold definition? at h
  rw [reads_current_bind] at h
  split at h
  · obtain ⟨o, ts₁, hquery, h⟩ := h.of_bind
    obtain ⟨-, rfl, rfl⟩ := reads_pure.1 h
    unfold anonymousQuery at hquery
    rw [reads_offset_bind] at hquery
    obtain ⟨set, ts₂, hset, h⟩ := hquery.of_bind
    rw [reads_spanFrom_bind] at h
    obtain ⟨-, rfl, rfl⟩ := reads_pure.1 h
    obtain ⟨hset, hvalid⟩ := hset.spells_selectionSet hfuel
    exact ⟨_, rfl, .query hset, hvalid⟩
  · rename_i hkind
    split at h
    · rename_i kind hword
      obtain ⟨o, ts₁, ho, h⟩ := h.of_bind
      obtain ⟨-, rfl, rfl⟩ := reads_pure.1 h
      exact ⟨_, rfl, ho.spells_operation ⟨hkind, operationKind?_eq_some.1 hword⟩ hfuel⟩
    · rw [reads_ite] at h
      obtain ⟨htext, h⟩ | ⟨-, h⟩ := h
      · obtain ⟨f, ts₁, hf, h⟩ := h.of_bind
        obtain ⟨-, rfl, rfl⟩ := reads_pure.1 h
        exact ⟨_, rfl, hf.spells_fragment ⟨hkind, htext⟩ hfuel⟩
      · exact absurd h not_reads_unexpected_bind
  · exact absurd h not_reads_unexpected_bind

theorem Definition.Spelled.reads {d : Definition} (h : Definition.Spelled lines ts d ts') (hfine : Fine ts)
    (hfuel : 3 * ts.length ≤ fuel) : Reads lines (definition? fuel) ts (some d) ts' := by
  unfold definition?
  cases h with
  | query hset =>
    have hread := hset.reads hfine hfuel
    have hstart := hset.start
    obtain ⟨t, rest, rfl⟩ := hfine.ready.exists_cons
    rw [reads_current_bind]
    simp only [show t.kind = _ from hstart]
    refine Reads.bind ?_ (reads_pure.2 ⟨hread.ready_rest, rfl, rfl⟩)
    unfold anonymousQuery
    rw [reads_offset_bind]
    refine hread.bind ?_
    rw [reads_spanFrom_bind]
    exact reads_pure.2 ⟨hread.ready_rest, rfl, rfl⟩
  | operation hkeyword hname hvs hds hset =>
    have hread := hkeyword.reads_operation hname hvs hds hset hfine hfuel
    obtain ⟨hkind, htext⟩ := hkeyword
    rw [reads_current_bind]
    simp only [hkind, operationKind?_eq_some.2 htext]
    exact hread.bind (reads_pure.2 ⟨hread.ready_rest, rfl, rfl⟩)
  | fragment hkeyword hname hne hon hcondition hds hset =>
    have hread := hkeyword.reads_fragment hname hne hon hcondition hds hset hfine hfuel
    obtain ⟨hkind, htext⟩ := hkeyword
    rw [reads_current_bind]
    simp only [hkind, htext]
    exact hread.bind (reads_pure.2 ⟨hread.ready_rest, rfl, rfl⟩)

theorem Reads.spells_definitions {ds : List Definition} (h : Reads lines (definitions fuel) ts ds ts')
    (hfuel : 3 * ts.length < fuel) :
    Many (Definition.Spelled lines) ts ds ts' ∧ Across Token.Valid ts ts' ∧ kindOf ts' = .endOfFile := by
  induction fuel generalizing ts ds with
  | zero => omega
  | succ fuel ih =>
    rw [definitions_succ, reads_atEnd_bind, reads_ite] at h
    obtain ⟨hend, h⟩ | ⟨-, h⟩ := h
    · obtain ⟨-, rfl, rfl⟩ := reads_pure.1 h
      exact ⟨.nil, .refl, by simpa using hend⟩
    · obtain ⟨d?, ts₁, hd, h⟩ := h.of_bind
      obtain ⟨d, rfl, hd, hvalid⟩ := hd.spells_definition? (by omega)
      have := hd.takes.length_lt
      obtain ⟨rest, ts₂, hrest, h⟩ := Reads.of_bind (p := definitions fuel) (f := fun rest => pure (d :: rest)) h
      obtain ⟨-, rfl, rfl⟩ := reads_pure.1 h
      obtain ⟨hrest, hvalid', hend⟩ := ih hrest (by omega)
      exact ⟨.cons hd hrest, hvalid.trans hvalid', hend⟩

/-- Definitions are read up to the end of the file. -/
theorem Grammar.Many.reads_definitions {ds : List Definition} (h : Many (Definition.Spelled lines) ts ds ts')
    (hfine : Fine ts) (hend : kindOf ts' = .endOfFile) (hfuel : 3 * ts.length < fuel) :
    Reads lines (definitions fuel) ts ds ts' := by
  induction h generalizing fuel with
  | nil =>
    obtain _ | fuel := fuel
    · omega
    rw [definitions_succ, reads_atEnd_bind, reads_ite]
    exact .inl ⟨by simpa using hend, reads_pure.2 ⟨hfine.ready, rfl, rfl⟩⟩
  | cons head _ ih =>
    obtain _ | fuel := fuel
    · omega
    have := head.takes.length_lt
    have hrest := ih (hfine.of_takes head.takes) hend (by omega : 3 * _ < fuel)
    rw [definitions_succ, reads_atEnd_bind, reads_ite]
    refine .inr ⟨by simpa using head.takes.ne_end, (head.reads hfine (by omega)).bind ?_⟩
    exact hrest.bind (reads_pure.2 ⟨hrest.ready_rest, rfl, rfl⟩)

/-! ### Documents -/

theorem Reads.spells_document {d : Document} (h : Reads lines (document fuel) ts d ts') (hfuel : 3 * ts.length < fuel) :
    Document.Spelled lines ts d ∧ ∀ t ∈ ts, t.Valid := by
  unfold document at h
  rw [reads_offset_bind, reads_atEnd_bind, reads_ite] at h
  obtain ⟨-, h⟩ | ⟨hne, h⟩ := h
  · exact absurd h not_reads_unexpected_bind
  · obtain ⟨ds, ts₁, hds, h⟩ := h.of_bind
    obtain ⟨hmany, hvalid, hend⟩ := hds.spells_definitions hfuel
    obtain ⟨stop, rest, rfl⟩ := h.ready.exists_cons
    rw [reads_current_bind] at h
    obtain ⟨hready, rfl, rfl⟩ := reads_pure.1 h
    have hstop : stop.kind = .endOfFile := hend
    cases hready.ended with
    | cons hne _ => exact absurd hstop hne
    | last _ =>
      refine ⟨⟨hmany, hstop, ?_⟩, hvalid.forall_mem ?_⟩
      · -- no definition without a token
        rintro rfl
        cases hmany
        exact hne (by simpa using hend)
      · rw [List.forall_mem_singleton]
        exact ⟨by simp [hstop], by simp [hstop], by simp [hstop]⟩

theorem Document.Spelled.reads {d : Document} (h : Document.Spelled lines ts d) (hfine : Fine ts)
    (hfuel : 3 * ts.length < fuel) : ∃ stop, Reads lines (document fuel) ts d [stop] := by
  obtain ⟨hmany, hstop, hne⟩ := h
  have hread := hmany.reads_definitions hfine hstop hfuel
  rename_i ds stop
  refine ⟨stop, ?_⟩
  unfold document
  rw [reads_offset_bind, reads_atEnd_bind, reads_ite]
  refine .inr ⟨?_, hread.bind ?_⟩
  · cases hmany with
    | nil => exact absurd rfl hne
    | cons head _ => simpa using head.takes.ne_end
  · rw [reads_current_bind]
    exact reads_pure.2 ⟨hread.ready_rest, rfl, rfl⟩

end GraphQL
