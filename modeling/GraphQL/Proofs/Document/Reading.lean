import GraphQL.Proofs.Document.Covering
import GraphQL.Proofs.Document.Numerals

/-!
# Reading without complaints

`Reads lines p ts x ts'` says that a parser reads `x` off the tokens `ts`, stops at `ts'`, and reports nothing.  Parsers
report in a list that only grows (`Parser.Grows`), so a parser that reports nothing is made of steps that report nothing
(`reads_bind`).
-/

namespace GraphQL

open Grammar

/-! ### Tokens up to the end of the file -/

/-- The tokens end with the end of the file, which is nowhere else. -/
inductive Ended : List Token → Prop
  | last {t} (h : t.kind = .endOfFile) : Ended [t]
  | cons {t ts} (h : t.kind ≠ .endOfFile) (hts : Ended ts) : Ended (t :: ts)

/-- The tokens can be read: they end with the end of the file, numbers have the texts of such, and no error token comes
first. -/
structure Ready (ts : List Token) : Prop where
  ended : Ended ts
  formed : ∀ t ∈ ts, t.Formed
  noError : kindOf ts ≠ .error

theorem Ended.ne_nil {ts : List Token} (h : Ended ts) : ts ≠ [] := by
  cases h <;> simp

theorem Ended.tail {t : Token} {ts : List Token} (h : Ended (t :: ts)) (hne : t.kind ≠ .endOfFile) : Ended ts := by
  cases h with
  | last h => exact absurd h hne
  | cons _ hts => exact hts

/-! ### Cursors -/

namespace Cursor

/-- The token under the cursor and those after it. -/
def tokens (c : Cursor) : List Token := c.current :: c.rest

/-- The cursor stands before the tokens, and nothing has been reported. -/
structure Over (lines : LineIndex) (ts : List Token) (c : Cursor) : Prop where
  lines : c.lines = lines
  tokens : c.tokens = ts
  ready : Ready ts
  reports : c.reports = []

/-- What a parser may do to a cursor. -/
structure Leads (c c' : Cursor) : Prop where
  lines : c'.lines = c.lines
  ready : Ready c.tokens → Ready c'.tokens
  reports : c.reports <:+ c'.reports

variable {c c' c'' : Cursor} {lines : LineIndex} {ts : List Token}

theorem Leads.refl (c : Cursor) : c.Leads c := ⟨rfl, id, List.suffix_rfl⟩

theorem Leads.trans (h : c.Leads c') (h' : c'.Leads c'') : c.Leads c'' :=
  ⟨h'.lines.trans h.lines, h'.ready ∘ h.ready, h.reports.trans h'.reports⟩

theorem Over.eq (h : c.Over lines ts) (h' : c'.Over lines ts) : c = c' := by
  obtain ⟨l, current, rest, reports⟩ := c
  obtain ⟨l', current', rest', reports'⟩ := c'
  obtain ⟨rfl, htokens, -, rfl⟩ := h
  obtain ⟨hlines, htokens', -, hreports⟩ := h'
  obtain ⟨rfl, rfl⟩ := List.cons.inj (htokens.trans htokens'.symm)
  dsimp only at hlines hreports
  rw [hlines, hreports]

theorem exists_over (lines : LineIndex) (h : Ready ts) : ∃ c : Cursor, c.Over lines ts := by
  cases ts with
  | nil => exact absurd rfl h.ended.ne_nil
  | cons t rest => exact ⟨⟨lines, t, rest, []⟩, rfl, rfl, h, rfl⟩

/-- Moving on to tokens that end with the end of the file. -/
theorem leads_advanceTo (ts : List Token) (c : Cursor) :
    (advanceTo ts c).lines = c.lines ∧ (Ended ts → (∀ t ∈ ts, t.Formed) → Ready (advanceTo ts c).tokens) ∧
      c.reports <:+ (advanceTo ts c).reports := by
  induction ts generalizing c with
  | nil => exact ⟨rfl, fun h => absurd rfl h.ne_nil, List.suffix_rfl⟩
  | cons t rest ih =>
    unfold advanceTo
    split
    · rename_i herror
      obtain ⟨hlines, hready, hreports⟩ := ih { c with rest := rest, reports := diagnoseError t :: c.reports }
      refine ⟨hlines, fun h hformed => hready (h.tail ?_) (List.forall_mem_cons.1 hformed).2,
        (List.suffix_cons _ _).trans hreports⟩
      rw [herror]
      nofun
    · rename_i herror
      exact ⟨rfl, fun h hformed => ⟨h, hformed, herror⟩, List.suffix_rfl⟩

/-- If nothing is reported on the way, there was no error token. -/
theorem over_advanceTo (h : Ended ts) (hformed : ∀ t ∈ ts, t.Formed) (hreports : (advanceTo ts c).reports = []) :
    (advanceTo ts c).Over c.lines ts := by
  cases ts with
  | nil => exact absurd rfl h.ne_nil
  | cons t rest =>
    by_cases herror : t.kind = .error
    · have hsuffix := (leads_advanceTo rest { c with rest := rest, reports := diagnoseError t :: c.reports }).2.2
      unfold advanceTo at hreports
      rw [if_pos herror] at hreports
      rw [hreports] at hsuffix
      exact absurd (List.suffix_nil.1 hsuffix) (List.cons_ne_nil _ _)
    · unfold advanceTo at hreports ⊢
      rw [if_neg herror] at hreports ⊢
      exact ⟨rfl, rfl, ⟨h, hformed, herror⟩, hreports⟩

theorem over_advanceTo_of_ready (h : Ready ts) (hreports : c.reports = []) : (advanceTo ts c).Over c.lines ts := by
  refine over_advanceTo h.ended h.formed ?_
  cases ts with
  | nil => exact absurd rfl h.ended.ne_nil
  | cons t rest =>
    unfold advanceTo
    rw [if_neg (show t.kind ≠ .error from h.noError)]
    exact hreports

theorem over_ofTokens (h : Ended ts) (hformed : ∀ t ∈ ts, t.Formed) (hreports : (ofTokens lines ts).reports = []) :
    (ofTokens lines ts).Over lines ts :=
  over_advanceTo (c := ⟨lines, ⟨.endOfFile, .empty 0, ""⟩, ts, []⟩) h hformed hreports

theorem over_ofTokens_of_ready (h : Ready ts) : (ofTokens lines ts).Over lines ts :=
  over_advanceTo_of_ready (c := ⟨lines, ⟨.endOfFile, .empty 0, ""⟩, ts, []⟩) h rfl

end Cursor

/-! ### Parsers only add reports -/

namespace Parser

/-- The parser goes on from where it is, and takes no report back. -/
class Grows {α : Type} (p : Parser α) : Prop where
  leads (c : Cursor) : c.Leads (p.run c).2

variable {α β : Type}

instance (x : α) : Grows (pure x) := ⟨Cursor.Leads.refl⟩

instance Grows.bind (p : Parser α) (f : α → Parser β) [Grows p] [∀ x, Grows (f x)] : Grows (p >>= f) :=
  ⟨fun c => (Grows.leads (p := p) c).trans (Grows.leads (p := f (p.run c).1) (p.run c).2)⟩

instance (q : Prop) [Decidable q] (p p' : Parser α) [Grows p] [Grows p'] : Grows (if q then p else p') := by
  split <;> infer_instance

instance : Grows current := ⟨Cursor.Leads.refl⟩

instance : Grows offset := ⟨Cursor.Leads.refl⟩

instance : Grows location := ⟨Cursor.Leads.refl⟩

instance (start : Nat) : Grows (spanFrom start) := ⟨Cursor.Leads.refl⟩

instance (kind : TokenKind) : Grows (atKind kind) := ⟨Cursor.Leads.refl⟩

instance (p : Punctuator) : Grows (atPunctuator p) := ⟨Cursor.Leads.refl⟩

instance : Grows atEnd := ⟨Cursor.Leads.refl⟩

instance (word : String) : Grows (atKeyword word) := ⟨Cursor.Leads.refl⟩

instance (d : Diagnostic) : Grows (report d) := ⟨fun _ => ⟨rfl, id, List.suffix_cons _ _⟩⟩

instance : Grows advance where
  leads c := by
    obtain ⟨hlines, hready, hreports⟩ := Cursor.leads_advanceTo c.rest c
    refine ⟨hlines, fun h => ?_, hreports⟩
    show Ready (c.advanceTo c.rest).tokens
    obtain ⟨hended, hformed, hnoError⟩ := h
    cases hrest : c.rest with
    | nil => exact ⟨hended, hformed, hnoError⟩
    | cons t rest =>
      unfold Cursor.tokens at hended hformed
      rw [hrest] at hended hformed hready
      cases hended with
      | cons _ hts => exact hready hts (List.forall_mem_cons.1 hformed).2

instance : Grows unexpected := by
  unfold unexpected
  infer_instance

instance (what : String) : Grows (expected what) := by
  unfold expected
  infer_instance

instance (p : Punctuator) : Grows (expectPunctuator p) := by
  unfold expectPunctuator
  infer_instance

instance (word : String) : Grows (expectKeyword word) := by
  unfold expectKeyword
  infer_instance

instance : Grows advanceUnlessAtEnd := by
  unfold advanceUnlessAtEnd
  infer_instance

instance : Grows name := by
  unfold name
  infer_instance

-- the parsers below have many steps, each of which is an instance
set_option synthInstance.maxSize 100000

instance (fuel : Nat) : Grows (type fuel) := by
  induction fuel with
  | zero =>
    unfold type
    infer_instance
  | succ fuel ih =>
    unfold type
    dsimp only
    infer_instance

instance (t : Token) : Grows (intLiteral t) := by
  unfold intLiteral
  infer_instance

instance (t : Token) : Grows (stringLiteral t) := by
  unfold stringLiteral
  split <;> infer_instance

private theorem grows_values (isConst : Bool) (fuel : Nat) :
    Grows (value isConst fuel) ∧ Grows (listItems isConst fuel) ∧ Grows (objectFields isConst fuel) := by
  induction fuel with
  | zero =>
    unfold value listItems objectFields
    exact ⟨inferInstance, inferInstance, inferInstance⟩
  | succ fuel ih =>
    obtain ⟨_, _, _⟩ := ih
    refine ⟨?_, ?_, ?_⟩
    · unfold value
      refine @Grows.bind _ _ _ _ inferInstance fun t => ?_
      split <;> infer_instance
    · unfold listItems
      infer_instance
    · unfold objectFields
      infer_instance

instance (isConst : Bool) (fuel : Nat) : Grows (value isConst fuel) := (grows_values isConst fuel).1

instance (isConst : Bool) (fuel : Nat) : Grows (listItems isConst fuel) := (grows_values isConst fuel).2.1

instance (isConst : Bool) (fuel : Nat) : Grows (objectFields isConst fuel) := (grows_values isConst fuel).2.2

instance (fuel : Nat) : Grows (argumentList fuel) := by
  induction fuel with
  | zero =>
    unfold argumentList
    infer_instance
  | succ fuel ih =>
    unfold argumentList
    infer_instance

instance (fuel : Nat) : Grows (arguments fuel) := by
  unfold arguments
  infer_instance

instance (fuel : Nat) : Grows (directives fuel) := by
  induction fuel with
  | zero =>
    unfold directives
    infer_instance
  | succ fuel ih =>
    unfold directives
    infer_instance

private theorem grows_selections (fuel : Nat) :
    Grows (selectionSet fuel) ∧ Grows (selectionList fuel) ∧ Grows (selection fuel) := by
  induction fuel with
  | zero =>
    unfold selectionSet selectionList selection
    exact ⟨inferInstance, inferInstance, inferInstance⟩
  | succ fuel ih =>
    obtain ⟨_, _, _⟩ := ih
    refine ⟨?_, ?_, ?_⟩
    · unfold selectionSet
      infer_instance
    · unfold selectionList
      infer_instance
    · unfold selection
      dsimp only
      infer_instance

instance (fuel : Nat) : Grows (selectionSet fuel) := (grows_selections fuel).1

instance (fuel : Nat) : Grows (selectionList fuel) := (grows_selections fuel).2.1

instance (fuel : Nat) : Grows (selection fuel) := (grows_selections fuel).2.2

instance (fuel : Nat) : Grows (variableDefinition fuel) := by
  unfold variableDefinition
  dsimp only
  infer_instance

instance (fuel : Nat) : Grows (variableDefinitions fuel) := by
  induction fuel with
  | zero =>
    unfold variableDefinitions
    infer_instance
  | succ fuel ih =>
    unfold variableDefinitions
    infer_instance

instance (fuel : Nat) (kind : OperationKind) : Grows (operation fuel kind) := by
  unfold operation
  dsimp only
  infer_instance

instance (fuel : Nat) : Grows (anonymousQuery fuel) := by
  unfold anonymousQuery
  infer_instance

instance (fuel : Nat) : Grows (fragment fuel) := by
  unfold fragment
  dsimp only
  infer_instance

instance (fuel : Nat) : Grows (definition? fuel) := by
  unfold definition?
  refine @Grows.bind _ _ _ _ inferInstance fun t => ?_
  split
  · infer_instance
  · split <;> infer_instance
  · infer_instance

/-- Reads what comes after a definition, or after a token that opens none. -/
def definitionsFrom (fuel : Nat) : Option Definition → Parser (List Definition)
  | some d => do return d :: (← definitions fuel)
  | none => do
    advance
    definitions fuel

theorem definitions_succ (fuel : Nat) :
    definitions (fuel + 1) = (do
      if ← atEnd then return []
      else
        let d? ← definition? fuel
        definitionsFrom fuel d?) := by
  rw [definitions]
  rfl

private theorem grows_definitions (fuel : Nat) : Grows (definitions fuel) := by
  induction fuel with
  | zero =>
    unfold definitions
    infer_instance
  | succ fuel ih =>
    have (d? : Option Definition) : Grows (definitionsFrom fuel d?) := by
      unfold definitionsFrom
      split <;> infer_instance
    rw [definitions_succ]
    infer_instance

instance (fuel : Nat) : Grows (definitions fuel) := grows_definitions fuel

instance (fuel : Nat) (d? : Option Definition) : Grows (definitionsFrom fuel d?) := by
  unfold definitionsFrom
  split <;> infer_instance

instance (fuel : Nat) : Grows (document fuel) := by
  unfold document
  dsimp only
  infer_instance

end Parser

/-! ### Reading -/

/-- The parser reads something off the tokens, stops before others, and reports nothing. -/
def Reads {α : Type} (lines : LineIndex) (p : Parser α) : Spelling α := fun ts x ts' =>
  ∃ c c' : Cursor, c.Over lines ts ∧ c'.Over lines ts' ∧ p.run c = (x, c')

namespace Reads

variable {α β : Type} {lines : LineIndex} {p : Parser α} {f : α → Parser β} {ts ts₁ ts' : List Token} {x : α} {y : β}

theorem ready (h : Reads lines p ts x ts') : Ready ts := by
  obtain ⟨c, -, hc, -⟩ := h
  exact hc.ready

theorem ready_rest (h : Reads lines p ts x ts') : Ready ts' := by
  obtain ⟨-, c', -, hc', -⟩ := h
  exact hc'.ready

/-- What is read by two parsers in turn. -/
theorem bind (h : Reads lines p ts x ts₁) (h' : Reads lines (f x) ts₁ y ts') : Reads lines (p >>= f) ts y ts' := by
  obtain ⟨c, c₁, hc, hc₁, hrun⟩ := h
  obtain ⟨c₁', c', hc₁', hc', hrun'⟩ := h'
  obtain rfl := hc₁.eq hc₁'
  refine ⟨c, c', hc, hc', ?_⟩
  show (f (p.run c).1).run (p.run c).2 = _
  rw [hrun]
  exact hrun'

/-- If two parsers in turn report nothing, neither of them does. -/
theorem of_bind [Parser.Grows p] [∀ x, Parser.Grows (f x)] (h : Reads lines (p >>= f) ts y ts') :
    ∃ x ts₁, Reads lines p ts x ts₁ ∧ Reads lines (f x) ts₁ y ts' := by
  obtain ⟨c, c', hc, hc', hrun⟩ := h
  have hfirst := Parser.Grows.leads (p := p) c
  have hsecond := Parser.Grows.leads (p := f (p.run c).1) (p.run c).2
  have hrun' : (f (p.run c).1).run (p.run c).2 = (y, c') := hrun
  rw [hrun'] at hsecond
  have hc₁ : (p.run c).2.Over lines (p.run c).2.tokens := by
    refine ⟨hfirst.lines.trans hc.lines, rfl, hfirst.ready (hc.tokens ▸ hc.ready), ?_⟩
    have hsuffix := hsecond.reports
    rw [hc'.reports] at hsuffix
    exact List.suffix_nil.1 hsuffix
  exact ⟨(p.run c).1, (p.run c).2.tokens, ⟨c, _, hc, hc₁, rfl⟩, _, c', hc₁, hc', hrun'⟩

end Reads

/-! ### Single steps -/

namespace Grammar

/-- The text of the first token. -/
def textOf : List Token → String
  | [] => ""
  | t :: _ => t.text

end Grammar

theorem Ready.of_proper {t : Token} {ts : List Token} (h : t.Proper) (hts : Ready ts) : Ready (t :: ts) :=
  ⟨.cons h.ne_end hts.ended, List.forall_mem_cons.2 ⟨h.formed, hts.formed⟩, h.ne_error⟩

theorem Ready.exists_cons {ts : List Token} (h : Ready ts) : ∃ t rest, ts = t :: rest :=
  List.exists_cons_of_ne_nil h.ended.ne_nil

variable {α β : Type} {lines : LineIndex} {ts ts' : List Token} {x : α} {y : β}

theorem reads_pure {a : α} : Reads lines (pure a) ts x ts' ↔ Ready ts ∧ a = x ∧ ts = ts' := by
  constructor
  · rintro ⟨c, c', hc, hc', h⟩
    obtain ⟨rfl, rfl⟩ := Prod.mk.inj h
    exact ⟨hc.ready, rfl, hc.tokens.symm.trans hc'.tokens⟩
  · rintro ⟨hready, rfl, rfl⟩
    obtain ⟨c, hc⟩ := Cursor.exists_over lines hready
    exact ⟨c, c, hc, hc, rfl⟩

theorem reads_ite {q : Prop} [Decidable q] {p p' : Parser α} :
    Reads lines (if q then p else p') ts x ts' ↔ (q ∧ Reads lines p ts x ts') ∨ (¬ q ∧ Reads lines p' ts x ts') := by
  split <;> simp [*]

section

variable {f : α → Parser β}

/-- Looking does not move on. -/
private theorem reads_look_bind {p : Parser α} {look : Cursor → α} (hp : ∀ c, p.run c = (look c, c))
    (hx : ∀ c : Cursor, c.Over lines ts → look c = x) : Reads lines (p >>= f) ts y ts' ↔ Reads lines (f x) ts y ts' := by
  have hrun : ∀ c : Cursor, c.Over lines ts → (p >>= f).run c = (f x).run c := by
    intro c hc
    show (f (p.run c).1).run (p.run c).2 = _
    rw [hp, hx c hc]
  constructor
  · rintro ⟨c, c', hc, hc', h⟩
    exact ⟨c, c', hc, hc', (hrun c hc).symm.trans h⟩
  · rintro ⟨c, c', hc, hc', h⟩
    exact ⟨c, c', hc, hc', (hrun c hc).trans h⟩

/-- A parser that reads what a relation says. -/
theorem reads_bind_iff {p : Parser α} {R : Spelling α} [Parser.Grows p] [∀ x, Parser.Grows (f x)]
    (h : ∀ x ts₁, Reads lines p ts x ts₁ ↔ Ready ts₁ ∧ R ts x ts₁) :
    Reads lines (p >>= f) ts y ts' ↔ ∃ x ts₁, R ts x ts₁ ∧ Reads lines (f x) ts₁ y ts' := by
  constructor
  · intro hreads
    obtain ⟨x, ts₁, hx, hy⟩ := hreads.of_bind
    exact ⟨x, ts₁, ((h x ts₁).1 hx).2, hy⟩
  · rintro ⟨x, ts₁, hx, hy⟩
    exact ((h x ts₁).2 ⟨hy.ready, hx⟩).bind hy

end

namespace Parser

theorem reads_current_bind {f : Token → Parser β} {t : Token} :
    Reads lines (current >>= f) (t :: ts) y ts' ↔ Reads lines (f t) (t :: ts) y ts' :=
  reads_look_bind (fun _ => rfl) fun _ hc => (List.cons.inj hc.tokens).1

theorem reads_offset_bind {f : Nat → Parser β} :
    Reads lines (offset >>= f) ts y ts' ↔ Reads lines (f (startOf ts)) ts y ts' :=
  reads_look_bind (fun _ => rfl) fun _ hc => hc.tokens ▸ rfl

theorem reads_location_bind {f : Location → Parser β} :
    Reads lines (location >>= f) ts y ts' ↔ Reads lines (f (lines.location (startOf ts))) ts y ts' :=
  reads_look_bind (fun _ => rfl) fun _ hc => hc.tokens ▸ hc.lines ▸ rfl

theorem reads_spanFrom_bind {start : Nat} {f : Span → Parser β} :
    Reads lines (spanFrom start >>= f) ts y ts' ↔ Reads lines (f ⟨start, startOf ts⟩) ts y ts' :=
  reads_look_bind (fun _ => rfl) fun _ hc => hc.tokens ▸ rfl

theorem reads_atKind_bind {kind : TokenKind} {f : Bool → Parser β} :
    Reads lines (atKind kind >>= f) ts y ts' ↔ Reads lines (f (decide (kindOf ts = kind))) ts y ts' :=
  reads_look_bind (fun _ => rfl) fun _ hc => hc.tokens ▸ rfl

theorem reads_atPunctuator_bind {p : Punctuator} {f : Bool → Parser β} :
    Reads lines (atPunctuator p >>= f) ts y ts' ↔ Reads lines (f (decide (kindOf ts = .punctuator p))) ts y ts' :=
  reads_atKind_bind

theorem reads_atEnd_bind {f : Bool → Parser β} :
    Reads lines (atEnd >>= f) ts y ts' ↔ Reads lines (f (decide (kindOf ts = .endOfFile))) ts y ts' :=
  reads_atKind_bind

theorem reads_atKeyword_bind {word : String} {f : Bool → Parser β} :
    Reads lines (atKeyword word >>= f) ts y ts' ↔
      Reads lines (f (decide (kindOf ts = .name ∧ textOf ts = word))) ts y ts' :=
  reads_look_bind (fun _ => rfl) fun _ hc => hc.tokens ▸ rfl

/-- A report is not taken back. -/
theorem not_reads_report_bind {d : Diagnostic} {f : Unit → Parser β} [Grows (f ())] :
    ¬ Reads lines (report d >>= f) ts y ts' := by
  rintro ⟨c, c', hc, hc', h⟩
  have hsuffix := (Grows.leads (p := f ()) { c with reports := d :: c.reports }).reports
  rw [show (f ()).run { c with reports := d :: c.reports } = (y, c') from h, hc'.reports] at hsuffix
  exact absurd (List.suffix_nil.1 hsuffix) (List.cons_ne_nil _ _)

theorem not_reads_unexpected_bind {f : Unit → Parser β} [Grows (f ())] :
    ¬ Reads lines (unexpected >>= f) ts y ts' := by
  intro h
  obtain ⟨t, rest, rfl⟩ := h.ready.exists_cons
  unfold unexpected at h
  rw [bind_assoc, reads_current_bind] at h
  exact not_reads_report_bind h

theorem not_reads_expected_bind {what : String} {f : Unit → Parser β} [Grows (f ())] :
    ¬ Reads lines (expected what >>= f) ts y ts' := by
  intro h
  obtain ⟨t, rest, rfl⟩ := h.ready.exists_cons
  unfold expected at h
  rw [bind_assoc, reads_current_bind] at h
  exact not_reads_report_bind h

theorem reads_advance {t : Token} (ht : t.Proper) {u : Unit} :
    Reads lines advance (t :: ts) u ts' ↔ Ready ts ∧ ts = ts' := by
  constructor
  · rintro ⟨⟨l, t', rest, reports⟩, c', hc, hc', h⟩
    obtain ⟨rfl, htokens, hready, rfl⟩ := hc
    obtain ⟨rfl, rfl⟩ := List.cons.inj htokens
    obtain rfl : Cursor.advanceTo rest ⟨l, t', rest, []⟩ = c' := congrArg Prod.snd h
    have hover := Cursor.over_advanceTo (hready.ended.tail ht.ne_end) (List.forall_mem_cons.1 hready.formed).2 hc'.reports
    exact ⟨hover.ready, hover.tokens.symm.trans hc'.tokens⟩
  · rintro ⟨hready, rfl⟩
    obtain ⟨next, rest, rfl⟩ := hready.exists_cons
    exact ⟨⟨lines, t, next :: rest, []⟩, _, ⟨rfl, rfl, hready.of_proper ht, rfl⟩,
      Cursor.over_advanceTo_of_ready (c := ⟨lines, t, next :: rest, []⟩) hready rfl, rfl⟩

theorem reads_advance_bind {t : Token} (ht : t.Proper) {f : Unit → Parser β} [∀ u, Grows (f u)] :
    Reads lines (advance >>= f) (t :: ts) y ts' ↔ Reads lines (f ()) ts y ts' := by
  constructor
  · intro h
    obtain ⟨_, ts₁, hadvance, h⟩ := h.of_bind
    obtain ⟨-, rfl⟩ := (reads_advance ht).1 hadvance
    exact h
  · intro h
    exact ((reads_advance (u := ()) ht).2 ⟨h.ready, rfl⟩).bind h

theorem reads_advance_keyword {word : String} {ts₁ : List Token} (h : Keyword word ts ts₁) {f : Unit → Parser β}
    [∀ u, Grows (f u)] : Reads lines (advance >>= f) ts y ts' ↔ Reads lines (f ()) ts₁ y ts' := by
  cases h with
  | mk hkind => exact reads_advance_bind (Token.proper_of_name hkind)

/-- A step over a punctuator. -/
theorem reads_step {p : Punctuator} {f : Unit → Parser β} [∀ u, Grows (f u)] :
    kindOf ts = .punctuator p ∧ Reads lines (advance >>= f) ts y ts' ↔
      ∃ ts₁, Sign p ts ts₁ ∧ Reads lines (f ()) ts₁ y ts' := by
  constructor
  · rintro ⟨hkind, h⟩
    obtain ⟨t, rest, rfl⟩ := h.ready.exists_cons
    exact ⟨rest, ⟨hkind⟩, (reads_advance_bind (Token.proper_of_punctuator hkind)).1 h⟩
  · rintro ⟨ts₁, ⟨hkind⟩, h⟩
    exact ⟨hkind, (reads_advance_bind (Token.proper_of_punctuator hkind)).2 h⟩

/-- A step over a word. -/
theorem reads_step_keyword {word : String} {f : Unit → Parser β} [∀ u, Grows (f u)] :
    (kindOf ts = .name ∧ textOf ts = word) ∧ Reads lines (advance >>= f) ts y ts' ↔
      ∃ ts₁, Keyword word ts ts₁ ∧ Reads lines (f ()) ts₁ y ts' := by
  constructor
  · rintro ⟨⟨hkind, htext⟩, h⟩
    obtain ⟨t, rest, rfl⟩ := h.ready.exists_cons
    exact ⟨rest, ⟨hkind, htext⟩, (reads_advance_bind (Token.proper_of_name hkind)).1 h⟩
  · rintro ⟨ts₁, ⟨hkind, htext⟩, h⟩
    exact ⟨⟨hkind, htext⟩, (reads_advance_bind (Token.proper_of_name hkind)).2 h⟩

theorem reads_expectPunctuator_bind {p : Punctuator} {f : Unit → Parser β} [∀ u, Grows (f u)] :
    Reads lines (expectPunctuator p >>= f) ts y ts' ↔ ∃ ts₁, Sign p ts ts₁ ∧ Reads lines (f ()) ts₁ y ts' := by
  rw [← reads_step]
  unfold expectPunctuator
  rw [bind_assoc, reads_atPunctuator_bind]
  by_cases hkind : kindOf ts = .punctuator p
  · simp [hkind]
  · simp [hkind, not_reads_expected_bind]

theorem reads_expectKeyword_bind {word : String} {f : Unit → Parser β} [∀ u, Grows (f u)] :
    Reads lines (expectKeyword word >>= f) ts y ts' ↔ ∃ ts₁, Keyword word ts ts₁ ∧ Reads lines (f ()) ts₁ y ts' := by
  rw [← reads_step_keyword]
  unfold expectKeyword
  rw [bind_assoc, reads_atKeyword_bind]
  by_cases hword : kindOf ts = .name ∧ textOf ts = word
  · simp [hword]
  · simp [hword, not_reads_expected_bind]

theorem reads_name_bind {f : Name → Parser β} [∀ n, Grows (f n)] :
    Reads lines (name >>= f) ts y ts' ↔ ∃ n ts₁, Name.Spelled ts n ts₁ ∧ Reads lines (f n) ts₁ y ts' := by
  refine reads_bind_iff fun n ts₁ => ?_
  unfold name
  constructor
  · intro h
    obtain ⟨t, rest, rfl⟩ := h.ready.exists_cons
    rw [reads_current_bind, reads_ite] at h
    obtain ⟨hkind, h⟩ | ⟨-, h⟩ := h
    · rw [reads_advance_bind (Token.proper_of_name hkind), reads_pure] at h
      obtain ⟨hready, rfl, rfl⟩ := h
      exact ⟨hready, ⟨hkind⟩⟩
    · exact absurd h not_reads_expected_bind
  · rintro ⟨hready, ⟨hkind⟩⟩
    rw [reads_current_bind, if_pos hkind, reads_advance_bind (Token.proper_of_name hkind), reads_pure]
    exact ⟨hready, rfl, rfl⟩

end Parser

end GraphQL
