import GraphQL.Proofs.Document.Values

/-!
# Reading selections

Selection sets are read without complaints exactly if they are spelled in valid tokens (`Reads.spells_selectionSet`,
`SelectionSet.Spelled.reads`).  The first token of a selection, and the one after its dots, tell its form.
-/

namespace GraphQL

open Grammar GraphQL.Parser

set_option synthInstance.maxSize 100000

variable {lines : LineIndex} {ts ts₁ ts₂ ts₃ ts' : List Token} {fuel : Nat}

/-! ### Where parts start -/

theorem Argument.ListSpelled.start {args : List Argument} (h : Argument.ListSpelled ts args ts') :
    kindOf ts = .punctuator .openParen ∨ ts = ts' := by
  cases h with
  | none => exact .inr rfl
  | some h =>
    obtain ⟨hopen, -, -⟩ := h
    exact .inl hopen.kindOf

theorem Directive.start {ds : List Directive} (h : Many Directive.Spelled ts ds ts') :
    kindOf ts = .punctuator .atSign ∨ ts = ts' := by
  cases h with
  | nil => exact .inr rfl
  | cons head _ =>
    obtain ⟨hat, -, -⟩ := head
    exact .inl hat.kindOf

theorem SelectionSet.Spelled.start {set : SelectionSet} (h : SelectionSet.Spelled lines ts set ts') :
    kindOf ts = .punctuator .openBrace := by
  obtain ⟨⟨hopen, -, -⟩, -⟩ := h
  exact hopen.kindOf

theorem SelectionSet.start {set : Option SelectionSet} (h : Optional (SelectionSet.Spelled lines) ts set ts') :
    kindOf ts = .punctuator .openBrace ∨ ts = ts' := by
  cases h with
  | none => exact .inr rfl
  | some h => exact .inl h.start

theorem Selection.Spelled.start {s : Selection} (h : Selection.Spelled lines ts s ts') :
    kindOf ts = .name ∨ kindOf ts = .punctuator .spread := by
  cases h with
  | field hname => exact .inl hname.kindOf
  | aliased halias => exact .inl halias.kindOf
  | inlineOn hspread => exact .inr hspread.kindOf
  | inline hspread => exact .inr hspread.kindOf
  | spread hspread => exact .inr hspread.kindOf

/-- No field goes on here. -/
structure FieldEnds (ts : List Token) : Prop where
  colon : kindOf ts ≠ .punctuator .colon
  openParen : kindOf ts ≠ .punctuator .openParen
  atSign : kindOf ts ≠ .punctuator .atSign
  openBrace : kindOf ts ≠ .punctuator .openBrace

theorem FieldEnds.of_stopsAt (h : StopsAt .closeBrace ts) : FieldEnds ts := by
  rcases h with h | h <;> exact ⟨by simp [h], by simp [h], by simp [h], by simp [h]⟩

theorem Selection.Spelled.fieldEnds {s : Selection} (h : Selection.Spelled lines ts s ts') : FieldEnds ts := by
  rcases h.start with h | h <;> exact ⟨by simp [h], by simp [h], by simp [h], by simp [h]⟩

theorem Selection.Spelled.not_stopsAt {s : Selection} (h : Selection.Spelled lines ts s ts') :
    ¬ StopsAt .closeBrace ts := by
  unfold StopsAt
  rcases h.start with h | h <;> simp [h]

/-! ### Directives before a selection set -/

/-- Directives and a selection set are spelled. -/
theorem spells_body {β : Type} {f : List Directive → SelectionSet → Span → β} {start : Nat} {y : β}
    (hset : ∀ {ts set ts'}, Reads lines (selectionSet fuel) ts set ts' → 3 * ts.length ≤ fuel →
      SelectionSet.Spelled lines ts set ts' ∧ Across Token.Valid ts ts')
    (h : Reads lines (do
      let ds ← directives fuel
      let set ← selectionSet fuel
      return f ds set (← spanFrom start)) ts y ts') (hfuel : 3 * ts.length ≤ fuel) :
    ∃ ds ts₁ set, Many Directive.Spelled ts ds ts₁ ∧ SelectionSet.Spelled lines ts₁ set ts' ∧
      Across Token.Valid ts ts' ∧ y = f ds set ⟨start, startOf ts'⟩ := by
  obtain ⟨ds, ts₁, hds, h⟩ := h.of_bind
  obtain ⟨set, ts₂, hreads, h⟩ := h.of_bind
  rw [reads_spanFrom_bind] at h
  obtain ⟨-, rfl, rfl⟩ := reads_pure.1 h
  obtain ⟨hds, hvalid⟩ := hds.spells_directives (by omega)
  have := (Directive.covers hds).length_le
  obtain ⟨hset, hvalid'⟩ := hset hreads (by omega)
  exact ⟨ds, ts₁, set, hds, hset, hvalid.trans hvalid', rfl⟩

/-- Directives and a selection set are read. -/
theorem reads_body {β : Type} {f : List Directive → SelectionSet → Span → β} {start : Nat}
    {ds : List Directive} {set : SelectionSet}
    (hset : ∀ {ts set ts'}, SelectionSet.Spelled lines ts set ts' → Fine ts → 3 * ts.length ≤ fuel →
      Reads lines (selectionSet fuel) ts set ts')
    (hds : Many Directive.Spelled ts ds ts₁) (h : SelectionSet.Spelled lines ts₁ set ts') (hfine : Fine ts)
    (hfuel : 3 * ts.length ≤ fuel) :
    Reads lines (do
      let ds ← directives fuel
      let set ← selectionSet fuel
      return f ds set (← spanFrom start)) ts (f ds set ⟨start, startOf ts'⟩) ts' := by
  have hcovers := Directive.covers hds
  have := hcovers.length_le
  have hafter := h.start
  have hset := hset h (hfine.of_covers hcovers) (by omega)
  refine (hds.reads_directives hfine ⟨by simp [hafter], by simp [hafter]⟩ (by omega)).bind (hset.bind ?_)
  rw [reads_spanFrom_bind]
  exact reads_pure.2 ⟨hset.ready_rest, rfl, rfl⟩

/-! ### Fields -/

/-- Reads what comes after the name of a field. -/
private def fieldRest (fuel start : Nat) (place : Location) (aliasName : Option Name) (key : Name) : Parser Selection := do
  let args ← arguments fuel
  let ds ← directives fuel
  if ← atPunctuator .openBrace then
    let set ← selectionSet fuel
    return .field ⟨aliasName, key, args, ds, some set, ← spanFrom start, place⟩
  else return .field ⟨aliasName, key, args, ds, none, ← spanFrom start, place⟩

private theorem spells_fieldRest {start : Nat} {place : Location} {aliasName : Option Name} {key : Name} {s : Selection}
    (hset : ∀ {ts set ts'}, Reads lines (selectionSet fuel) ts set ts' → 3 * ts.length ≤ fuel →
      SelectionSet.Spelled lines ts set ts' ∧ Across Token.Valid ts ts')
    (h : Reads lines (fieldRest fuel start place aliasName key) ts s ts') (hfuel : 3 * ts.length ≤ fuel) :
    ∃ args ts₁ ds ts₂ set, Argument.ListSpelled ts args ts₁ ∧ Many Directive.Spelled ts₁ ds ts₂ ∧
      Optional (SelectionSet.Spelled lines) ts₂ set ts' ∧ Across Token.Valid ts ts' ∧
      s = .field ⟨aliasName, key, args, ds, set, ⟨start, startOf ts'⟩, place⟩ := by
  unfold fieldRest at h
  obtain ⟨args, ts₁, hargs, h⟩ := h.of_bind
  obtain ⟨ds, ts₂, hds, h⟩ := h.of_bind
  rw [reads_atPunctuator_bind] at h
  simp only [decide_eq_true_eq, reads_ite, reads_spanFrom_bind, reads_pure] at h
  obtain ⟨hargs, hvalid⟩ := hargs.spells_arguments (by omega)
  have := hargs.covers.length_le
  obtain ⟨hds, hvalid'⟩ := hds.spells_directives (by omega)
  have := (Directive.covers hds).length_le
  obtain ⟨-, h⟩ | ⟨-, -, rfl, rfl⟩ := h
  · obtain ⟨set, ts₃, hreads, h⟩ := h.of_bind
    rw [reads_spanFrom_bind] at h
    obtain ⟨-, rfl, rfl⟩ := reads_pure.1 h
    obtain ⟨hset, hvalid''⟩ := hset hreads (by omega)
    exact ⟨args, ts₁, ds, ts₂, _, hargs, hds, .some hset, hvalid.trans (hvalid'.trans hvalid''), rfl⟩
  · exact ⟨args, ts₁, ds, ts₂, _, hargs, hds, .none, hvalid.trans hvalid', rfl⟩

private theorem reads_fieldRest {start : Nat} {place : Location} {aliasName : Option Name} {key : Name}
    {args : List Argument} {ds : List Directive} {set : Option SelectionSet}
    (hset : ∀ {ts set ts'}, SelectionSet.Spelled lines ts set ts' → Fine ts → 3 * ts.length ≤ fuel →
      Reads lines (selectionSet fuel) ts set ts')
    (hargs : Argument.ListSpelled ts args ts₁) (hds : Many Directive.Spelled ts₁ ds ts₂)
    (h : Optional (SelectionSet.Spelled lines) ts₂ set ts') (hfine : Fine ts) (hends : FieldEnds ts')
    (hfuel : 3 * ts.length ≤ fuel) :
    Reads lines (fieldRest fuel start place aliasName key) ts
      (.field ⟨aliasName, key, args, ds, set, ⟨start, startOf ts'⟩, place⟩) ts' := by
  have hfine₁ := hfine.of_covers hargs.covers
  have hfine₂ := hfine₁.of_covers (Directive.covers hds)
  have := hargs.covers.length_le
  have := (Directive.covers hds).length_le
  have hafter : kindOf ts₂ ≠ .punctuator .atSign ∧ kindOf ts₂ ≠ .punctuator .openParen := by
    rcases SelectionSet.start h with h | rfl
    · simp [h]
    · exact ⟨hends.atSign, hends.openParen⟩
  have hafterArgs : kindOf ts₁ ≠ .punctuator .openParen := by
    rcases Directive.start hds with h | rfl
    · simp [h]
    · exact hafter.2
  unfold fieldRest
  refine (hargs.reads hfine hafterArgs (by omega)).bind ((hds.reads_directives hfine₁ hafter (by omega)).bind ?_)
  rw [reads_atPunctuator_bind]
  simp only [decide_eq_true_eq, reads_ite, reads_spanFrom_bind]
  cases h with
  | none => exact .inr ⟨hends.openBrace, reads_pure.2 ⟨hfine₂.ready, rfl, rfl⟩⟩
  | some h =>
    have hset := hset h hfine₂ (by omega)
    refine .inl ⟨h.start, hset.bind ?_⟩
    rw [reads_spanFrom_bind]
    exact reads_pure.2 ⟨hset.ready_rest, rfl, rfl⟩

/-! ### Selections -/

/-- What a selection spells, if that is so of selection sets with a step less. -/
private theorem Reads.selection_succ {s : Selection}
    (hset : ∀ {ts set ts'}, Reads lines (selectionSet fuel) ts set ts' → 3 * ts.length ≤ fuel →
      SelectionSet.Spelled lines ts set ts' ∧ Across Token.Valid ts ts')
    (h : Reads lines (selection (fuel + 1)) ts s ts') (hfuel : 3 * ts.length ≤ fuel) :
    Selection.Spelled lines ts s ts' ∧ Across Token.Valid ts ts' := by
  have hrest : ∀ {ts s start place aliasName key},
      Reads lines (fieldRest fuel start place aliasName key) ts s ts' → 3 * ts.length ≤ fuel →
      ∃ args ts₁ ds ts₂ set, Argument.ListSpelled ts args ts₁ ∧ Many Directive.Spelled ts₁ ds ts₂ ∧
        Optional (SelectionSet.Spelled lines) ts₂ set ts' ∧ Across Token.Valid ts ts' ∧
        s = .field ⟨aliasName, key, args, ds, set, ⟨start, startOf ts'⟩, place⟩ :=
    fun h hfuel => spells_fieldRest hset h hfuel
  unfold selection at h
  simp only [reads_atPunctuator_bind, reads_atKeyword_bind, reads_offset_bind, reads_location_bind, decide_eq_true_eq,
    Bool.or_eq_true, reads_ite, reads_step, reads_step_keyword, pure_bind, reads_name_bind] at h
  obtain ⟨ts₁, hspread, h⟩ | ⟨-, name, ts₁, hname, h⟩ := h
  · have := hspread.takes.length_lt
    obtain ⟨ts₂, hon, condition, ts₃, hcondition, h⟩ | ⟨hon, ⟨-, h⟩ | ⟨-, name, ts₂, hname, h⟩⟩ := h
    · have := hon.takes.length_lt
      have := hcondition.takes.length_lt
      obtain ⟨ds, ts₄, set, hds, hset, hvalid, rfl⟩ := spells_body hset h (by omega)
      exact ⟨.inlineOn hspread hon hcondition hds hset,
        hspread.valid.trans (hon.valid.trans (hcondition.valid.trans hvalid))⟩
    · obtain ⟨ds, ts₂, set, hds, hset, hvalid, rfl⟩ := spells_body hset h (by omega)
      exact ⟨.inline hspread hds hset, hspread.valid.trans hvalid⟩
    · obtain ⟨ds, ts₃, hds, h⟩ := h.of_bind
      rw [reads_spanFrom_bind] at h
      obtain ⟨-, rfl, rfl⟩ := reads_pure.1 h
      have := hname.takes.length_lt
      obtain ⟨hds, hvalid⟩ := hds.spells_directives (by omega)
      refine ⟨.spread hspread hname ?_ hds, hspread.valid.trans (hname.valid.trans hvalid)⟩
      obtain ⟨hkind⟩ := hname
      exact fun htext => hon ⟨hkind, htext⟩
  · have := hname.takes.length_lt
    obtain ⟨ts₂, hcolon, key, ts₃, hkey, h⟩ | ⟨-, h⟩ := h
    · have := hcolon.takes.length_lt
      have := hkey.takes.length_lt
      obtain ⟨args, ts₄, ds, ts₅, set, hargs, hds, hset, hvalid, rfl⟩ := hrest h (by omega)
      exact ⟨.aliased hname hcolon hkey hargs hds hset,
        hname.valid.trans (hcolon.valid.trans (hkey.valid.trans hvalid))⟩
    · obtain ⟨args, ts₂, ds, ts₃, set, hargs, hds, hset, hvalid, rfl⟩ := hrest h (by omega)
      exact ⟨.field hname hargs hds hset, hname.valid.trans hvalid⟩

/-- A selection is read, if selection sets are with a step less. -/
private theorem Selection.Spelled.reads_succ {s : Selection}
    (hset : ∀ {ts set ts'}, SelectionSet.Spelled lines ts set ts' → Fine ts → 3 * ts.length ≤ fuel →
      Reads lines (selectionSet fuel) ts set ts')
    (h : Selection.Spelled lines ts s ts') (hfine : Fine ts) (hends : FieldEnds ts') (hfuel : 3 * ts.length ≤ fuel) :
    Reads lines (selection (fuel + 1)) ts s ts' := by
  unfold selection
  simp only [reads_atPunctuator_bind, reads_atKeyword_bind, reads_offset_bind, reads_location_bind, decide_eq_true_eq,
    Bool.or_eq_true, reads_ite, reads_step, reads_step_keyword, pure_bind, reads_name_bind]
  cases h with
  | field hname hargs hds hoptional =>
    have := hname.takes.length_lt
    have hfine₁ := hfine.of_takes hname.takes
    refine .inr ⟨by simp [hname.kindOf], _, _, hname, .inr ⟨?_, ?_⟩⟩
    · -- what comes after the name is no colon
      rcases hargs.start with h | rfl
      · simp [h]
      rcases Directive.start hds with h | rfl
      · simp [h]
      rcases SelectionSet.start hoptional with h | rfl
      · simp [h]
      · exact hends.colon
    · exact reads_fieldRest hset hargs hds hoptional hfine₁ hends (by omega)
  | aliased halias hcolon hname hargs hds hoptional =>
    have := halias.takes.length_lt
    have := hcolon.takes.length_lt
    have := hname.takes.length_lt
    have hfine₁ := ((hfine.of_takes halias.takes).of_takes hcolon.takes).of_takes hname.takes
    refine .inr ⟨by simp [halias.kindOf], _, _, halias, .inl ⟨_, hcolon, _, _, hname, ?_⟩⟩
    exact reads_fieldRest hset hargs hds hoptional hfine₁ hends (by omega)
  | inlineOn hspread hon hcondition hds hinline =>
    have := hspread.takes.length_lt
    have := hon.takes.length_lt
    have := hcondition.takes.length_lt
    have hfine₁ := ((hfine.of_takes hspread.takes).of_takes hon.takes).of_takes hcondition.takes
    exact .inl ⟨_, hspread, .inl ⟨_, hon, _, _, hcondition, reads_body hset hds hinline hfine₁ (by omega)⟩⟩
  | @inline _ ts₁ _ _ _ _ hspread hds hinline =>
    have := hspread.takes.length_lt
    have hfine₁ := hfine.of_takes hspread.takes
    have hafter : kindOf ts₁ = .punctuator .openBrace ∨ kindOf ts₁ = .punctuator .atSign := by
      rcases Directive.start hds with h | rfl
      · exact .inr h
      · exact .inl hinline.start
    refine .inl ⟨_, hspread, .inr ⟨?_, .inl ⟨hafter, reads_body hset hds hinline hfine₁ (by omega)⟩⟩⟩
    rcases hafter with h | h <;> simp [h]
  | spread hspread hname hon hds =>
    have := hspread.takes.length_lt
    have := hname.takes.length_lt
    have hds : Reads lines (directives fuel) _ _ ts' :=
      hds.reads_directives ((hfine.of_takes hspread.takes).of_takes hname.takes) ⟨hends.atSign, hends.openParen⟩ (by omega)
    refine .inl ⟨_, hspread, .inr ⟨?_, .inr ⟨by simp [hname.kindOf], _, _, hname, hds.bind ?_⟩⟩⟩
    · obtain ⟨hkind⟩ := hname
      exact fun h => hon h.2
    · rw [reads_spanFrom_bind]
      exact reads_pure.2 ⟨hds.ready_rest, rfl, rfl⟩

private theorem cost_lt {m n : Nat} (h : m < n) : 3 * m + 1 < 3 * n + 1 := by omega

theorem isLoop_selectionList : IsLoop₁ .closeBrace selection selectionList := fun fuel => by
  rw [selectionList]

theorem Reads.spells_selectionSet {set : SelectionSet} (h : Reads lines (selectionSet fuel) ts set ts')
    (hfuel : 3 * ts.length ≤ fuel) : SelectionSet.Spelled lines ts set ts' ∧ Across Token.Valid ts ts' := by
  induction fuel using Nat.strongRecOn generalizing ts set ts' with
  | ind fuel ih =>
    obtain _ | fuel := fuel
    · exact absurd h.ready.length_pos (by omega)
    rw [selectionSet] at h
    rw [reads_offset_bind, reads_expectPunctuator_bind] at h
    obtain ⟨ts₁, hopen, h⟩ := h
    obtain ⟨selections, ts₂, hlist, h⟩ := h.of_bind
    rw [reads_expectPunctuator_bind] at h
    obtain ⟨ts₃, hclose, h⟩ := h
    rw [reads_spanFrom_bind] at h
    obtain ⟨-, rfl, rfl⟩ := reads_pure.1 h
    have := hopen.takes.length_lt
    obtain ⟨hne, hmany, hvalid⟩ := hlist.many₁ (R := Selection.Spelled lines) cost_lt Selection.Spelled.takes
      (fun k hk ts s ts' h hfuel => by
        obtain _ | k := k
        · omega
        · exact Reads.selection_succ (fun h hfuel => ih k (by omega) h hfuel) h (by omega))
      isLoop_selectionList (Nat.le_refl fuel) (by omega)
    exact ⟨.mk ⟨hopen, hmany, hclose⟩ hne, hopen.valid.trans (hvalid.trans hclose.valid)⟩

theorem SelectionSet.Spelled.reads {set : SelectionSet} (h : SelectionSet.Spelled lines ts set ts') (hfine : Fine ts)
    (hfuel : 3 * ts.length ≤ fuel) : Reads lines (selectionSet fuel) ts set ts' := by
  induction fuel using Nat.strongRecOn generalizing ts set ts' with
  | ind fuel ih =>
    obtain _ | fuel := fuel
    · exact absurd hfine.ready.length_pos (by omega)
    have hready := (hfine.of_takes h.takes).ready
    obtain ⟨⟨hopen, hmany, hclose⟩, hne⟩ := h
    have := hopen.takes.length_lt
    have hlist : Reads lines (selectionList fuel) _ _ _ := hmany.reads₁ FieldEnds cost_lt Selection.Spelled.takes
      (fun h => ⟨h.not_stopsAt, h.fieldEnds⟩) FieldEnds.of_stopsAt
      (fun k hk ts s ts' h hfine hends hfuel => by
        obtain _ | k := k
        · omega
        · exact h.reads_succ (fun h hfine hfuel => ih k (by omega) h hfine hfuel) hfine hends (by omega))
      isLoop_selectionList hne (hfine.of_takes hopen.takes) (.inl hclose.kindOf) (Nat.le_refl fuel) (by omega)
    rw [selectionSet]
    rw [reads_offset_bind, reads_expectPunctuator_bind]
    refine ⟨_, hopen, hlist.bind ?_⟩
    rw [reads_expectPunctuator_bind]
    refine ⟨_, hclose, ?_⟩
    rw [reads_spanFrom_bind]
    exact reads_pure.2 ⟨hready, rfl, rfl⟩

end GraphQL
