import GraphQL.Proofs.Document.Outline
import GraphQL.Proofs.Document.Progress

/-!
# Spans of what is read

Whatever the tokens are, the cursor only moves on.  So all that a production reads lies between the offset where the cursor
was before and the one where it is afterwards (`Track.Lays`): a name has the span of a token that is stepped over, unless the
file ends there, and any other node starts where its production starts and stops where the next token starts.

This is proved of the tracked reader, which has no result when its fuel runs out; as it never does, the same holds of the
reader (`Document.parse?_nests`).
-/

namespace GraphQL

open SpanTree

variable {limit : Nat}

/-! ### Cursors -/

namespace Cursor

/-- The offset at which the token under the cursor starts. -/
def offset (c : Cursor) : Nat := c.current.span.start

/-- The cursor is on tokens that follow each other and do not go beyond a limit; the one at the end of the file is empty. -/
structure Spaced (limit : Nat) (c : Cursor) : Prop where
  ready : Ready c.tokens
  ordered : c.tokens.Pairwise fun t u => t.span.stop ≤ u.span.start
  le : ∀ t ∈ c.tokens, t.span.start ≤ t.span.stop
  last : ∀ t ∈ c.tokens, t.kind = .endOfFile → t.span.stop = t.span.start
  stop : ∀ t ∈ c.tokens, t.span.stop ≤ limit

variable {c c' : Cursor}

theorem current_mem (c : Cursor) : c.current ∈ c.tokens := List.mem_cons_self

theorem Spaced.offset_le (h : c.Spaced limit) : c.offset ≤ c.current.span.stop := h.le _ c.current_mem

/-- Tokens that are left are spaced as before. -/
theorem Spaced.suffix (h : c.Spaced limit) (hready : Ready c'.tokens) (hsuffix : c'.tokens <:+ c.tokens) :
    c'.Spaced limit where
  ready := hready
  ordered := h.ordered.sublist hsuffix.sublist
  le t ht := h.le t (hsuffix.subset ht)
  last t ht := h.last t (hsuffix.subset ht)
  stop t ht := h.stop t (hsuffix.subset ht)

/-- The cursor moves on over the token under it, or stays at the end of the file, where no byte is left. -/
theorem Spaced.advance (h : c.Spaced limit) : (c.advanceTo c.rest).Spaced limit ∧
    c.current.span.stop ≤ (c.advanceTo c.rest).offset := by
  by_cases hend : c.current.kind = .endOfFile
  · have hrest : c.rest = [] := (List.cons.inj (tokens_eq_singleton h.ready hend)).2
    have hstay : c.advanceTo c.rest = c := by
      rw [hrest]
      rfl
    rw [hstay]
    exact ⟨h, Nat.le_of_eq (h.last _ c.current_mem hend)⟩
  · obtain ⟨hready, errors, hrest, -, -⟩ :=
      advanceTo_spec (h.ready.ended.tail hend) (List.forall_mem_cons.1 h.ready.formed).2 c
    have hmem := List.mem_append_right errors (c.advanceTo c.rest).current_mem
    rw [← hrest] at hmem
    refine ⟨h.suffix hready ⟨c.current :: errors, ?_⟩, ?_⟩
    · rw [List.cons_append, ← hrest]
      rfl
    · exact (List.pairwise_cons.1 h.ordered).1 _ hmem

end Cursor

/-! ### Parsers that move on -/

namespace Parser

variable {α β : Type} {p : Parser α} {f : α → Parser β} {c : Cursor}

/-- Wherever the cursor is, it only moves on. -/
def Passes (p : Parser α) : Prop :=
  ∀ limit (c : Cursor), c.Spaced limit → (p.run c).2.Spaced limit ∧ c.offset ≤ (p.run c).2.offset

theorem passes_pure (x : α) : Passes (pure x) := fun _ _ h => ⟨h, Nat.le_refl _⟩

theorem Passes.bind (h : p.Passes) (h' : ∀ x, (f x).Passes) : (p >>= f).Passes := by
  intro limit c hc
  obtain ⟨hc₁, hle₁⟩ := h limit c hc
  obtain ⟨hc₂, hle₂⟩ := h' (p.run c).1 limit (p.run c).2 hc₁
  exact ⟨hc₂, Nat.le_trans hle₁ hle₂⟩

theorem passes_advance : Passes advance := fun _ _ h => ⟨h.advance.1, Nat.le_trans h.offset_le h.advance.2⟩

theorem passes_report (d : Diagnostic) : Passes (report d) := fun _ _ h => ⟨⟨h.ready, h.ordered, h.le, h.last, h.stop⟩, Nat.le_refl _⟩

theorem passes_current : Passes current := fun _ _ h => ⟨h, Nat.le_refl _⟩

theorem passes_expected (what : String) : Passes (expected what) := passes_current.bind fun _ => passes_report _

theorem passes_unexpected : Passes unexpected := passes_current.bind fun _ => passes_report _

theorem passes_atKind (kind : TokenKind) : Passes (atKind kind) := passes_current.bind fun _ => passes_pure _

theorem passes_expectPunctuator (punctuator : Punctuator) : Passes (expectPunctuator punctuator) := by
  refine (passes_atKind _).bind fun found => ?_
  split
  · exact passes_advance
  · exact passes_expected _

theorem passes_expectKeyword (word : String) : Passes (expectKeyword word) := by
  refine Passes.bind (passes_current.bind fun _ => passes_pure _) fun found => ?_
  split
  · exact passes_advance
  · exact passes_expected _

theorem passes_intLiteral (t : Token) : Passes (intLiteral t) := by
  unfold intLiteral
  dsimp only
  split
  · exact passes_pure _
  · exact (passes_report _).bind fun _ => passes_pure _

theorem passes_stringLiteral (t : Token) : Passes (stringLiteral t) := by
  unfold stringLiteral
  split
  · exact passes_pure _
  · exact (passes_report _).bind fun _ => passes_pure _

/-- Whatever is in the place of a name is skipped, but for the end of the file. -/
theorem skips_advanceUnlessAtEnd (h : c.Spaced limit) : (advanceUnlessAtEnd.run c).2.Spaced limit ∧
    c.current.span.stop ≤ (advanceUnlessAtEnd.run c).2.offset := by
  show ((if decide (c.current.kind = .endOfFile) then pure () else advance : Parser Unit).run c).2.Spaced limit ∧
    c.current.span.stop ≤ ((if decide (c.current.kind = .endOfFile) then pure () else advance : Parser Unit).run c).2.offset
  split
  · rename_i hend
    exact ⟨h, Nat.le_of_eq (h.last _ c.current_mem (of_decide_eq_true hend))⟩
  · exact h.advance

theorem passes_advanceUnlessAtEnd : Passes advanceUnlessAtEnd := fun _ _ h =>
  ⟨(skips_advanceUnlessAtEnd h).1, Nat.le_trans h.offset_le (skips_advanceUnlessAtEnd h).2⟩

/-- A name has the span of the token under the cursor, and the cursor is after that token then. -/
theorem skips_name (h : c.Spaced limit) : (name.run c).2.Spaced limit ∧ (name.run c).1.span = c.current.span ∧
    c.current.span.stop ≤ (name.run c).2.offset := by
  have hskips : (name.run c).2.Spaced limit ∧ c.current.span.stop ≤ (name.run c).2.offset := by
    by_cases hname : c.current.kind = .name
    · have hrun : (name.run c).2 = c.advanceTo c.rest := by
        show ((if c.current.kind = .name then _ else _ : Parser Name).run c).2 = _
        rw [if_pos hname]
        rfl
      rw [hrun]
      exact h.advance
    · have hrun : (name.run c).2 = (advanceUnlessAtEnd.run ((expected TokenKind.name.label).run c).2).2 := by
        show ((if c.current.kind = .name then _ else _ : Parser Name).run c).2 = _
        rw [if_neg hname]
        rfl
      rw [hrun]
      exact skips_advanceUnlessAtEnd (passes_expected _ limit c h).1
  exact ⟨hskips.1, (visits_name h.ready).2, hskips.2⟩

end Parser

/-! ### Tracked parsers -/

namespace Track

open GraphQL.Parser (current offset location spanFrom advance report atKind atPunctuator atEnd atKeyword unexpected
  expectPunctuator expectKeyword advanceUnlessAtEnd intLiteral stringLiteral nameLiteral operationKind?)

variable {α β : Type} {q : Track α} {p : Parser α} {f : α → Track β} {c : Cursor} {P : β → Cursor → Prop}
  {Q : α → Cursor → Prop}

/-- If the parser has an outcome, it satisfies `P` with the cursor after it. -/
def Ensures (q : Track α) (c : Cursor) (Q : α → Cursor → Prop) : Prop :=
  ∀ log x log' c', ((q.run log).run.run c : Id _) = (some (x, log'), c') → Q x c'

theorem ensures_pure {x : α} (h : Q x c) : Ensures (pure x) c Q := by
  intro log y log' c' hrun
  cases hrun
  exact h

theorem ensures_failure : Ensures (failure : Track α) c Q := by
  intro log y log' c' hrun
  cases hrun

theorem Ensures.bind (h : Ensures q c Q) (h' : ∀ x c', Q x c' → Ensures (f x) c' P) : Ensures (q >>= f) c P := by
  intro log y log'' c'' hrun
  cases hfirst : ((q.run log).run.run c : Id _) with
  | mk outcome c' =>
    cases outcome with
    | none =>
      simp only [StateT.run_bind, OptionT.run_bind, Option.elimM, StateT.run_bind] at hrun
      rw [hfirst] at hrun
      cases hrun
    | some result =>
      obtain ⟨x, log'⟩ := result
      rw [run_bind hfirst] at hrun
      exact h' x c' (h log x log' c' hfirst) log' y log'' c'' hrun

/-- The outcome has two properties. -/
theorem Ensures.step {R : α → Cursor → Prop} (h : Ensures q c fun x c' => Q x c' ∧ R x c')
    (h' : ∀ x c', Q x c' → R x c' → Ensures (f x) c' P) : Ensures (q >>= f) c P :=
  h.bind fun x c' hx => h' x c' hx.1 hx.2

theorem ensures_lift (h : Q (p.run c).1 (p.run c).2) : Ensures (liftM p) c Q := by
  intro log y log' c' hrun
  cases hrun
  exact h

theorem Ensures.mono {Q' : α → Cursor → Prop} (h : Ensures q c Q) (hQ : ∀ x c', Q x c' → Q' x c') : Ensures q c Q' :=
  fun log x log' c' hrun => hQ x c' (h log x log' c' hrun)

/-- Looking changes nothing. -/
theorem Ensures.look {p : Parser α} {x : α} (hp : p.run c = (x, c)) (h : Ensures (f x) c P) :
    Ensures (liftM p >>= f) c P := by
  refine Ensures.bind (Q := fun y c' => y = x ∧ c' = c) (ensures_lift ?_) ?_
  · rw [hp]
    exact ⟨rfl, rfl⟩
  · rintro _ _ ⟨rfl, rfl⟩
    exact h

theorem Ensures.within {production : Production} (h : Ensures q c Q) : Ensures (within production q) c Q := by
  refine Ensures.look (x := c.tokens) rfl (h.bind fun x c' hQ => Ensures.look (x := c'.tokens) rfl ?_)
  intro log y log' c'' hrun
  cases hrun
  exact hQ

/-- A parser that only moves the cursor on. -/
theorem Ensures.pass {p : Parser α} (hc : c.Spaced limit) (hp : p.Passes)
    (h : ∀ x c', c'.Spaced limit → c.offset ≤ c'.offset → Ensures (f x) c' P) : Ensures (liftM p >>= f) c P := by
  obtain ⟨hc', hle⟩ := hp limit c hc
  refine Ensures.bind (Q := fun _ c' => c'.Spaced limit ∧ c.offset ≤ c'.offset) (ensures_lift ⟨hc', hle⟩) ?_
  rintro x c' ⟨hc', hle⟩
  exact h x c' hc' hle

/-- Looking at the token under the cursor. -/
theorem Ensures.test {p : Parser Bool} {f : Bool → Track β} (hp : ∃ b, p.run c = (b, c)) (h : Ensures (f true) c P)
    (h' : Ensures (f false) c P) : Ensures (liftM p >>= f) c P := by
  obtain ⟨b, hp⟩ := hp
  refine Ensures.look hp ?_
  cases b
  · exact h'
  · exact h

/-- All that a parser reads lies between the offset where the cursor was and the one where it is then. -/
def Lays (limit : Nat) (q : Track α) (outline : α → List SpanTree) : Prop :=
  ∀ c : Cursor, c.Spaced limit → Ensures q c fun x c' => c'.Spaced limit ∧ LaidOut c.offset (outline x) c'.offset

/-! ### Loops -/

section

variable {close : Punctuator} {loop : Loop} {body : Track α} {rest : Track (List α)} {o : α → List SpanTree}
  {outlines : List α → List SpanTree}

/-- What a loop reads lies one after the other. -/
theorem lays_loop (hnil : outlines [] = []) (hcons : ∀ x xs, outlines (x :: xs) = o x ++ outlines xs)
    (hbody : Lays limit body o) (hrest : Lays limit rest outlines) : Lays limit
      (do if (← (atPunctuator close : Parser Bool)) || (← (atEnd : Parser Bool)) then return []
          else
            let x ← within (.round loop) body
            return x :: (← rest)) outlines := by
  intro c hc
  have hstop : Ensures (pure []) c fun xs c' => c'.Spaced limit ∧ LaidOut c.offset (outlines xs) c'.offset := by
    refine ensures_pure ⟨hc, ?_⟩
    rw [hnil]
    exact .nil (Nat.le_refl _)
  refine Ensures.test ⟨_, rfl⟩ (Ensures.test ⟨_, rfl⟩ hstop hstop) (Ensures.test ⟨_, rfl⟩ hstop ?_)
  refine (hbody c hc).within.step fun x c₁ hc₁ hx => (hrest c₁ hc₁).step fun xs c₂ hc₂ hxs => ensures_pure ⟨hc₂, ?_⟩
  rw [hcons]
  exact hx.append hxs

/-- What a loop reads that looks where it is after each round lies one after the other. -/
theorem lays_loop₁ (hnil : outlines [] = []) (hcons : ∀ x xs, outlines (x :: xs) = o x ++ outlines xs)
    (hbody : Lays limit body o) (hrest : Lays limit rest outlines) : Lays limit
      (do let x ← within (.round loop) body
          if (← (atPunctuator close : Parser Bool)) || (← (atEnd : Parser Bool)) then return [x]
          else return x :: (← rest)) outlines := by
  intro c hc
  refine (hbody c hc).within.step fun x c₁ hc₁ hx => ?_
  have hstop : Ensures (pure [x]) c₁ fun xs c' => c'.Spaced limit ∧ LaidOut c.offset (outlines xs) c'.offset := by
    refine ensures_pure ⟨hc₁, ?_⟩
    rw [hcons, hnil, List.append_nil]
    exact hx
  refine Ensures.test ⟨_, rfl⟩ (Ensures.test ⟨_, rfl⟩ hstop hstop) (Ensures.test ⟨_, rfl⟩ hstop ?_)
  refine (hrest c₁ hc₁).step fun xs c₂ hc₂ hxs => ensures_pure ⟨hc₂, ?_⟩
  rw [hcons]
  exact hx.append hxs

end

/-! ### Names, types and values -/

theorem lays_name : Lays limit name fun n => [n.outline] := by
  intro c hc
  obtain ⟨hc', hspan, hstop⟩ := Parser.skips_name hc
  refine Ensures.within (ensures_lift ⟨hc', ?_⟩)
  show LaidOut c.offset [.node (Parser.name.run c).1.span []] (Parser.name.run c).2.offset
  rw [hspan]
  exact .cons (Nat.le_refl _) (.nil hc.offset_le) (.nil hstop)

theorem lays_type (fuel : Nat) : Lays limit (type fuel) fun t => [t.outline] := by
  induction fuel with
  | zero => exact fun c _ => ensures_failure
  | succ fuel ih =>
    intro c hc
    -- an exclamation mark adds nothing to the name
    have hbang : ∀ {core : TypeNode} {c' : Cursor}, c'.Spaced limit → LaidOut c.offset [core.outline] c'.offset → Ensures
        (do if ← (atPunctuator .bang : Parser Bool) then
              advance
              return .nonNull core
            else return core) c' fun t c'' => c''.Spaced limit ∧ LaidOut c.offset [t.outline] c''.offset := by
      intro core c' hc' hcore
      refine Ensures.test ⟨_, rfl⟩ (Ensures.pass hc' Parser.passes_advance fun _ c'' hc'' hle => ?_) ?_
      · exact ensures_pure ⟨hc'', hcore.to_le hle⟩
      · exact ensures_pure ⟨hc', hcore⟩
    unfold type
    refine Ensures.within ?_
    simp only [pure_bind]
    refine Ensures.test ⟨_, rfl⟩ ?_ ((lays_name c hc).step fun n c₁ hc₁ hn => hbang hc₁ hn)
    refine Ensures.pass hc Parser.passes_advance fun _ c₁ hc₁ hle => ?_
    refine (ih c₁ hc₁).step fun item c₂ hc₂ hitem => ?_
    refine Ensures.pass hc₂ (Parser.passes_expectPunctuator _) fun _ c₃ hc₃ hle' => ?_
    exact hbang hc₃ ((hitem.from_le hle).to_le hle')

/-- What has no place has no span. -/
private theorem lays_skip {x : α} {o : α → List SpanTree} (hx : o x = []) : Lays limit
    (do unexpected
        advanceUnlessAtEnd
        return x) o := by
  intro c hc
  refine Ensures.pass hc Parser.passes_unexpected fun _ c₁ hc₁ hle => ?_
  refine Ensures.pass hc₁ Parser.passes_advanceUnlessAtEnd fun _ c₂ hc₂ hle' => ensures_pure ⟨hc₂, ?_⟩
  rw [hx]
  exact .nil (Nat.le_trans hle hle')

/-- A literal of a single token has no span. -/
private theorem ensures_token {x : Literal} (hc : c.Spaced limit) (hx : x.outlines = []) : Ensures
    (do advance
        return x) c fun v c' => c'.Spaced limit ∧ LaidOut c.offset v.outlines c'.offset := by
  refine Ensures.pass hc Parser.passes_advance fun _ c₁ hc₁ hle => ensures_pure ⟨hc₁, ?_⟩
  rw [hx]
  exact .nil hle

theorem outlines_nameLiteral (text : String) : (nameLiteral text).outlines = [] := by
  unfold nameLiteral
  split
  · rfl
  · split
    · rfl
    · split <;> rfl

theorem outlines_readFloat (text : String) : ((Double.read? text).elim .null .float : Literal).outlines = [] := by
  cases Double.read? text <;> rfl

/-- A literal of a single token that may be reported has no span. -/
private theorem ensures_literal {p : Parser Literal} (hc : c.Spaced limit) (hp : p.Passes)
    (hx : (p.run c).1.outlines = []) : Ensures
    (do let v ← (p : Parser Literal)
        advance
        return v) c fun v c' => c'.Spaced limit ∧ LaidOut c.offset v.outlines c'.offset := by
  obtain ⟨hc', hle⟩ := hp limit c hc
  refine Ensures.bind (Q := fun v c' => v.outlines = [] ∧ c'.Spaced limit ∧ c.offset ≤ c'.offset)
    (ensures_lift ⟨hx, hc', hle⟩) ?_
  rintro v c₁ ⟨hv, hc₁, hle⟩
  exact (ensures_token hc₁ hv).mono fun v c₂ h => ⟨h.1, h.2.from_le hle⟩

private theorem lays_value_succ {isConst : Bool} {fuel : Nat}
    (hitems : Lays limit (listItems isConst fuel) Literal.itemOutlines)
    (hfields : Lays limit (objectFields isConst fuel) Literal.fieldOutlines) :
    Lays limit (value isConst (fuel + 1)) Literal.outlines := by
  intro c hc
  have hskip : Ensures
      (do unexpected
          advanceUnlessAtEnd
          return Literal.null) c fun v c' => c'.Spaced limit ∧ LaidOut c.offset v.outlines c'.offset :=
    lays_skip (o := Literal.outlines) rfl c hc
  unfold value
  refine Ensures.within (Ensures.look (x := c.current) rfl ?_)
  cases c.current.kind with
  | endOfFile => exact hskip
  | error => exact hskip
  | name => exact ensures_token hc (outlines_nameLiteral _)
  | int =>
    refine ensures_literal hc (Parser.passes_intLiteral _) ?_
    unfold intLiteral
    dsimp only
    split <;> rfl
  | float => exact ensures_token hc (outlines_readFloat _)
  | string =>
    refine ensures_literal hc (Parser.passes_stringLiteral _) ?_
    unfold stringLiteral
    split <;> rfl
  | blockString => exact ensures_token hc rfl
  | punctuator p =>
    cases p with
    | dollar =>
      cases isConst with
      | true => exact hskip
      | false =>
        refine Ensures.pass hc Parser.passes_advance fun _ c₁ hc₁ hle => ?_
        exact (lays_name c₁ hc₁).step fun n c₂ hc₂ hn => ensures_pure ⟨hc₂, hn.from_le hle⟩
    | openBracket =>
      refine Ensures.pass hc Parser.passes_advance fun _ c₁ hc₁ hle => ?_
      refine (hitems c₁ hc₁).step fun items c₂ hc₂ hlaid => ?_
      refine Ensures.pass hc₂ (Parser.passes_expectPunctuator _) fun _ c₃ hc₃ hle' => ?_
      exact ensures_pure ⟨hc₃, (hlaid.from_le hle).to_le hle'⟩
    | openBrace =>
      refine Ensures.pass hc Parser.passes_advance fun _ c₁ hc₁ hle => ?_
      refine (hfields c₁ hc₁).step fun fields c₂ hc₂ hlaid => ?_
      refine Ensures.pass hc₂ (Parser.passes_expectPunctuator _) fun _ c₃ hc₃ hle' => ?_
      exact ensures_pure ⟨hc₃, (hlaid.from_le hle).to_le hle'⟩
    | _ => exact hskip

private theorem lays_values (isConst : Bool) (fuel : Nat) :
    Lays limit (value isConst fuel) Literal.outlines ∧ Lays limit (listItems isConst fuel) Literal.itemOutlines ∧
      Lays limit (objectFields isConst fuel) Literal.fieldOutlines := by
  induction fuel with
  | zero => exact ⟨fun c _ => ensures_failure, fun c _ => ensures_failure, fun c _ => ensures_failure⟩
  | succ fuel ih =>
    obtain ⟨hvalue, hitems, hfields⟩ := ih
    refine ⟨lays_value_succ hitems hfields, ?_, ?_⟩
    · unfold listItems
      exact lays_loop rfl (fun _ _ => rfl) hvalue hitems
    · unfold objectFields
      refine lays_loop (o := fun field => field.1.outline :: field.2.outlines) rfl (fun _ _ => rfl) ?_ hfields
      intro c hc
      refine (lays_name c hc).step fun key c₁ hc₁ hkey => ?_
      refine Ensures.pass hc₁ (Parser.passes_expectPunctuator _) fun _ c₂ hc₂ hle => ?_
      exact (hvalue c₂ hc₂).step fun v c₃ hc₃ hv => ensures_pure ⟨hc₃, (hkey.to_le hle).append hv⟩

theorem lays_value (isConst : Bool) (fuel : Nat) : Lays limit (value isConst fuel) Literal.outlines :=
  (lays_values isConst fuel).1

/-! ### Arguments and directives -/

theorem lays_argumentList (fuel : Nat) : Lays limit (argumentList fuel) (·.map Argument.outline) := by
  induction fuel with
  | zero => exact fun c _ => ensures_failure
  | succ fuel ih =>
    unfold argumentList
    refine lays_loop₁ (o := fun a => [a.outline]) rfl (fun _ _ => rfl) ?_ ih
    intro c hc
    refine Ensures.look (x := c.offset) rfl ((lays_name c hc).step fun key c₁ hc₁ hkey => ?_)
    refine Ensures.pass hc₁ (Parser.passes_expectPunctuator _) fun _ c₂ hc₂ hle => ?_
    refine (lays_value false fuel c₂ hc₂).step fun v c₃ hc₃ hv => Ensures.look (x := ⟨c.offset, c₃.offset⟩) rfl ?_
    exact ensures_pure ⟨hc₃, ((hkey.to_le hle).append hv).node⟩

theorem lays_arguments (fuel : Nat) : Lays limit (arguments fuel) (·.map Argument.outline) := by
  intro c hc
  unfold arguments
  refine Ensures.within (Ensures.test ⟨_, rfl⟩ ?_ (ensures_pure ⟨hc, .nil (Nat.le_refl _)⟩))
  refine Ensures.pass hc Parser.passes_advance fun _ c₁ hc₁ hle => ?_
  refine (lays_argumentList fuel c₁ hc₁).step fun args c₂ hc₂ hargs => ?_
  refine Ensures.pass hc₂ (Parser.passes_expectPunctuator _) fun _ c₃ hc₃ hle' => ?_
  exact ensures_pure ⟨hc₃, (hargs.from_le hle).to_le hle'⟩

private theorem lays_directiveList (fuel : Nat) : Lays limit (directiveList fuel) (·.map Directive.outline) := by
  induction fuel with
  | zero => exact fun c _ => ensures_failure
  | succ fuel ih =>
    intro c hc
    unfold directiveList
    refine Ensures.test ⟨_, rfl⟩ ?_ (ensures_pure ⟨hc, .nil (Nat.le_refl _)⟩)
    refine Ensures.step (Q := fun _ c' => c'.Spaced limit) (R := fun d c' => LaidOut c.offset [d.outline] c'.offset)
      (Ensures.within ?_) fun d c₁ hc₁ hd => (ih c₁ hc₁).step fun ds c₂ hc₂ hds => ensures_pure ⟨hc₂, hd.head hds⟩
    refine Ensures.look (x := c.offset) rfl (Ensures.pass hc Parser.passes_advance fun _ c₁ hc₁ hle => ?_)
    refine (lays_name c₁ hc₁).step fun key c₂ hc₂ hkey => ?_
    refine (lays_arguments fuel c₂ hc₂).step fun args c₃ hc₃ hargs => Ensures.look (x := ⟨c.offset, c₃.offset⟩) rfl ?_
    exact ensures_pure ⟨hc₃, ((hkey.head hargs).from_le hle).node⟩

theorem lays_directives (fuel : Nat) : Lays limit (directives fuel) (·.map Directive.outline) :=
  fun c hc => (lays_directiveList fuel c hc).within

/-! ### Selections -/

section

variable {fuel : Nat} (hset : Lays limit (selectionSet fuel) fun set => [set.outline])
include hset

/-- The end of an operation, a fragment or an inline fragment, after the parts in front of it. -/
private theorem ensures_body {x : List Directive → SelectionSet → Span → α} {o : α → List SpanTree} {start : Nat}
    {front : List SpanTree} (hc : c.Spaced limit) (hfront : LaidOut start front c.offset)
    (hx : ∀ ds set stop, o (x ds set ⟨start, stop⟩) =
      [.node ⟨start, stop⟩ (front ++ (ds.map Directive.outline ++ [set.outline]))]) : Ensures
    (do let ds ← directives fuel
        let set ← selectionSet fuel
        return x ds set (← (spanFrom start : Parser Span)))
    c fun y c' => c'.Spaced limit ∧ LaidOut start (o y) c'.offset := by
  refine (lays_directives fuel c hc).step fun ds c₁ hc₁ hds => (hset c₁ hc₁).step fun set c₂ hc₂ hset => ?_
  refine Ensures.look (x := ⟨start, c₂.offset⟩) rfl (ensures_pure ⟨hc₂, ?_⟩)
  rw [hx]
  exact (hfront.append (hds.append hset)).node

/-- What follows the name of a field. -/
private theorem ensures_fieldRest {x : List Argument → List Directive → Option SelectionSet → Span → α}
    {o : α → List SpanTree} {start : Nat} {front : List SpanTree} (hc : c.Spaced limit)
    (hfront : LaidOut start front c.offset)
    (hx : ∀ args ds set stop, o (x args ds set ⟨start, stop⟩) =
      [.node ⟨start, stop⟩ (front ++ (args.map Argument.outline ++
        (ds.map Directive.outline ++ Selection.optionOutlines set)))]) : Ensures
    (do let args ← arguments fuel
        let ds ← directives fuel
        if ← (atPunctuator .openBrace : Parser Bool) then
          let set ← selectionSet fuel
          return x args ds (some set) (← (spanFrom start : Parser Span))
        else return x args ds none (← (spanFrom start : Parser Span)))
    c fun y c' => c'.Spaced limit ∧ LaidOut start (o y) c'.offset := by
  refine (lays_arguments fuel c hc).step fun args c₁ hc₁ hargs => ?_
  refine (lays_directives fuel c₁ hc₁).step fun ds c₂ hc₂ hds => Ensures.test ⟨_, rfl⟩ ?_ ?_
  · refine (hset c₂ hc₂).step fun set c₃ hc₃ hset => Ensures.look (x := ⟨start, c₃.offset⟩) rfl (ensures_pure ⟨hc₃, ?_⟩)
    rw [hx]
    exact (hfront.append (hargs.append (hds.append hset))).node
  · refine Ensures.look (x := ⟨start, c₂.offset⟩) rfl (ensures_pure ⟨hc₂, ?_⟩)
    rw [hx]
    exact (hfront.append (hargs.append (hds.append (.nil (Nat.le_refl _))))).node

private theorem lays_selection_succ : Lays limit (selection (fuel + 1)) fun s => [s.outline] := by
  intro c hc
  unfold selection
  refine Ensures.within (Ensures.look (x := c.offset) rfl (Ensures.test ⟨_, rfl⟩ ?_ (Ensures.within ?_)))
  · -- three dots
    refine Ensures.pass hc Parser.passes_advance fun _ c₁ hc₁ hle => ?_
    have hinline : Ensures
        (do let ds ← directives fuel
            let set ← selectionSet fuel
            return Selection.inline ⟨none, ds, set, ← (spanFrom c.offset : Parser Span)⟩)
        c₁ fun s c' => c'.Spaced limit ∧ LaidOut c.offset [s.outline] c'.offset :=
      ensures_body hset (x := fun ds set span => Selection.inline ⟨none, ds, set, span⟩)
        (o := fun s => [s.outline]) hc₁ (.nil hle) fun _ _ _ => rfl
    refine Ensures.test ⟨_, rfl⟩ ?_ (Ensures.test ⟨_, rfl⟩ (Ensures.test ⟨_, rfl⟩ hinline hinline) (Ensures.test ⟨_, rfl⟩ hinline ?_))
    · refine Ensures.pass hc₁ Parser.passes_advance fun _ c₂ hc₂ hle' => ?_
      refine (lays_name c₂ hc₂).step fun condition c₃ hc₃ hcondition => ?_
      exact ensures_body hset (x := fun ds set span => Selection.inline ⟨some condition, ds, set, span⟩)
        (o := fun s => [s.outline]) hc₃ (hcondition.from_le (Nat.le_trans hle hle')) fun _ _ _ => rfl
    · refine (lays_name c₁ hc₁).step fun key c₂ hc₂ hkey => ?_
      refine (lays_directives fuel c₂ hc₂).step fun ds c₃ hc₃ hds => Ensures.look (x := ⟨c.offset, c₃.offset⟩) rfl ?_
      exact ensures_pure ⟨hc₃, ((hkey.head hds).from_le hle).node⟩
  · -- a field
    refine Ensures.look rfl ((lays_name c hc).step fun first c₁ hc₁ hfirst => ?_)
    simp only [pure_bind]
    refine Ensures.test ⟨_, rfl⟩ ?_ ?_
    · refine Ensures.pass hc₁ Parser.passes_advance fun _ c₂ hc₂ hle => ?_
      refine (lays_name c₂ hc₂).step fun key c₃ hc₃ hkey => ?_
      exact ensures_fieldRest hset (x := fun args ds set span => Selection.field ⟨some first, key, args, ds, set, span, _⟩)
        (o := fun s => [s.outline]) hc₃ ((hfirst.to_le hle).append hkey) fun _ _ _ _ => rfl
    · exact ensures_fieldRest hset (x := fun args ds set span => Selection.field ⟨none, first, args, ds, set, span, _⟩)
        (o := fun s => [s.outline]) hc₁ hfirst fun _ _ _ _ => rfl

end

private theorem lays_selections (fuel : Nat) :
    (Lays limit (selectionSet fuel) fun set => [set.outline]) ∧ Lays limit (selectionList fuel) Selection.listOutlines ∧
      Lays limit (selection fuel) fun s => [s.outline] := by
  induction fuel with
  | zero => exact ⟨fun c _ => ensures_failure, fun c _ => ensures_failure, fun c _ => ensures_failure⟩
  | succ fuel ih =>
    obtain ⟨hset, hlist, hselection⟩ := ih
    refine ⟨?_, ?_, lays_selection_succ hset⟩
    · intro c hc
      unfold selectionSet
      refine Ensures.within (Ensures.look (x := c.offset) rfl ?_)
      refine Ensures.pass hc (Parser.passes_expectPunctuator _) fun _ c₁ hc₁ hle => ?_
      refine (hlist c₁ hc₁).step fun selections c₂ hc₂ hlaid => ?_
      refine Ensures.pass hc₂ (Parser.passes_expectPunctuator _) fun _ c₃ hc₃ hle' => ?_
      refine Ensures.look (x := ⟨c.offset, c₃.offset⟩) rfl (ensures_pure ⟨hc₃, ?_⟩)
      exact ((hlaid.from_le hle).to_le hle').node
    · unfold selectionList
      exact lays_loop₁ rfl (fun _ _ => rfl) hselection hlist

theorem lays_selectionSet (fuel : Nat) : Lays limit (selectionSet fuel) fun set => [set.outline] :=
  (lays_selections fuel).1

/-! ### Definitions -/

theorem lays_variableDefinition (fuel : Nat) : Lays limit (variableDefinition fuel) fun v => [v.outline] := by
  intro c hc
  unfold variableDefinition
  refine Ensures.within (Ensures.look (x := c.offset) rfl (Ensures.look rfl ?_))
  refine Ensures.pass hc (Parser.passes_expectPunctuator _) fun _ c₁ hc₁ hle₁ => ?_
  refine (lays_name c₁ hc₁).step fun key c₂ hc₂ hkey => ?_
  refine Ensures.pass hc₂ (Parser.passes_expectPunctuator _) fun _ c₃ hc₃ hle₃ => ?_
  refine (lays_type fuel c₃ hc₃).step fun ty c₄ hc₄ hty => ?_
  have hfront := ((hkey.from_le hle₁).to_le hle₃).append hty
  simp only [pure_bind]
  refine Ensures.test ⟨_, rfl⟩ ?_ ?_
  · refine Ensures.pass hc₄ Parser.passes_advance fun _ c₅ hc₅ hle₅ => ?_
    refine (lays_value true fuel c₅ hc₅).step fun v c₆ hc₆ hv => ?_
    refine (lays_directives fuel c₆ hc₆).step fun ds c₇ hc₇ hds => Ensures.look (x := ⟨c.offset, c₇.offset⟩) rfl ?_
    exact ensures_pure ⟨hc₇, ((hfront.to_le hle₅).append (hv.append hds)).node⟩
  · refine (lays_directives fuel c₄ hc₄).step fun ds c₅ hc₅ hds => Ensures.look (x := ⟨c.offset, c₅.offset⟩) rfl ?_
    exact ensures_pure ⟨hc₅, (hfront.append hds).node⟩

theorem lays_variableDefinitions (fuel : Nat) :
    Lays limit (variableDefinitions fuel) (·.map VariableDefinition.outline) := by
  induction fuel with
  | zero => exact fun c _ => ensures_failure
  | succ fuel ih =>
    unfold variableDefinitions
    exact lays_loop (o := fun v => [v.outline]) rfl (fun _ _ => rfl) (lays_variableDefinition fuel) ih

theorem lays_operation (fuel : Nat) (kind : OperationKind) : Lays limit (operation fuel kind) fun o => [o.outline] := by
  intro c hc
  unfold operation
  refine Ensures.within (Ensures.look (x := c.offset) rfl (Ensures.pass hc Parser.passes_advance fun _ c₁ hc₁ hle => ?_))
  -- what follows the name, if there is one
  have hrest : ∀ {key : Option Name} {c' : Cursor}, c'.Spaced limit →
      LaidOut c.offset (key.toList.map Name.outline) c'.offset → Ensures
        (do let variableDefs ←
              if ← (atPunctuator .openParen : Parser Bool) then
                advance
                let vs ← variableDefinitions fuel
                expectPunctuator .closeParen
                pure vs
              else pure []
            let ds ← directives fuel
            let set ← selectionSet fuel
            return (⟨kind, key, variableDefs, ds, set, ← (spanFrom c.offset : Parser Span)⟩ : Operation))
        c' fun o c'' => c''.Spaced limit ∧ LaidOut c.offset [o.outline] c''.offset := by
    intro key c' hc' hkey
    have hbody : ∀ {vs : List VariableDefinition} {c' : Cursor}, c'.Spaced limit →
        LaidOut c.offset (key.toList.map Name.outline ++ vs.map VariableDefinition.outline) c'.offset → Ensures
          (do let ds ← directives fuel
              let set ← selectionSet fuel
              return (⟨kind, key, vs, ds, set, ← (spanFrom c.offset : Parser Span)⟩ : Operation))
          c' fun o c'' => c''.Spaced limit ∧ LaidOut c.offset [o.outline] c''.offset := by
      intro vs c' hc' hfront
      refine ensures_body (lays_selectionSet fuel) (x := fun ds set span => (⟨kind, key, vs, ds, set, span⟩ : Operation))
        (o := fun o => [o.outline]) hc' hfront fun ds set stop => ?_
      rw [List.append_assoc]
      rfl
    simp only [pure_bind]
    refine Ensures.test ⟨_, rfl⟩ ?_ (hbody hc' (by simpa using hkey))
    refine Ensures.pass hc' Parser.passes_advance fun _ c₂ hc₂ hle₂ => ?_
    refine (lays_variableDefinitions fuel c₂ hc₂).step fun vs c₃ hc₃ hvs => ?_
    refine Ensures.pass hc₃ (Parser.passes_expectPunctuator _) fun _ c₄ hc₄ hle₄ => ?_
    exact hbody hc₄ ((hkey.to_le hle₂).append (hvs.to_le hle₄))
  refine Ensures.test ⟨_, rfl⟩ ?_ (hrest hc₁ (.nil hle))
  exact (lays_name c₁ hc₁).step fun key c₂ hc₂ hkey => hrest hc₂ (hkey.from_le hle)

theorem lays_anonymousQuery (fuel : Nat) : Lays limit (anonymousQuery fuel) fun o => [o.outline] := by
  intro c hc
  unfold anonymousQuery
  refine Ensures.within (Ensures.look (x := c.offset) rfl ?_)
  refine (lays_selectionSet fuel c hc).step fun set c₁ hc₁ hset => Ensures.look (x := ⟨c.offset, c₁.offset⟩) rfl ?_
  exact ensures_pure ⟨hc₁, hset.node⟩

theorem lays_fragment (fuel : Nat) : Lays limit (fragment fuel) fun f => [f.outline] := by
  intro c hc
  unfold fragment
  refine Ensures.within (Ensures.look (x := c.offset) rfl (Ensures.pass hc Parser.passes_advance fun _ c₁ hc₁ hle => ?_))
  refine (lays_name c₁ hc₁).step fun key c₂ hc₂ hkey => ?_
  have hrest : ∀ {c' : Cursor}, c'.Spaced limit → c₂.offset ≤ c'.offset → Ensures
      (do expectKeyword "on"
          let condition ← name
          let ds ← directives fuel
          let set ← selectionSet fuel
          return (⟨key, condition, ds, set, ← (spanFrom c.offset : Parser Span)⟩ : Fragment))
      c' fun f c'' => c''.Spaced limit ∧ LaidOut c.offset [f.outline] c''.offset := by
    intro c' hc' hle'
    refine Ensures.pass hc' (Parser.passes_expectKeyword _) fun _ c₃ hc₃ hle₃ => ?_
    refine (lays_name c₃ hc₃).step fun condition c₄ hc₄ hcondition => ?_
    have hfront := ((hkey.from_le hle).to_le (Nat.le_trans hle' hle₃)).append hcondition
    exact ensures_body (lays_selectionSet fuel) (x := fun ds set span => (⟨key, condition, ds, set, span⟩ : Fragment))
      (o := fun f => [f.outline]) hc₄ hfront fun _ _ _ => rfl
  dsimp only
  split
  · exact Ensures.pass hc₂ (Parser.passes_report _) fun _ c₃ hc₃ hle₃ => hrest hc₃ hle₃
  · exact hrest hc₂ (Nat.le_refl _)

theorem lays_definition? (fuel : Nat) : Lays limit (definition? fuel) fun d => d.toList.map Definition.outline := by
  intro c hc
  have hnone : Ensures
      (do unexpected
          return (none : Option Definition)) c fun d c' =>
        c'.Spaced limit ∧ LaidOut c.offset (d.toList.map Definition.outline) c'.offset :=
    Ensures.pass hc Parser.passes_unexpected fun _ c₁ hc₁ hle => ensures_pure ⟨hc₁, .nil hle⟩
  unfold definition?
  refine Ensures.within (Ensures.look (x := c.current) rfl ?_)
  split
  · exact (lays_anonymousQuery fuel c hc).step fun o c₁ hc₁ ho => ensures_pure ⟨hc₁, ho⟩
  · split
    · exact (lays_operation fuel _ c hc).step fun o c₁ hc₁ ho => ensures_pure ⟨hc₁, ho⟩
    · split
      · exact (lays_fragment fuel c hc).step fun f c₁ hc₁ hf => ensures_pure ⟨hc₁, hf⟩
      · exact hnone
  · exact hnone

theorem lays_definitions (fuel : Nat) : Lays limit (definitions fuel) (·.map Definition.outline) := by
  induction fuel with
  | zero => exact fun c _ => ensures_failure
  | succ fuel ih =>
    intro c hc
    unfold definitions
    refine Ensures.test ⟨_, rfl⟩ (ensures_pure ⟨hc, .nil (Nat.le_refl _)⟩) ?_
    refine Ensures.step (Q := fun _ c' => c'.Spaced limit)
      (R := fun d c' => LaidOut c.offset (d.toList.map Definition.outline) c'.offset)
      (Ensures.within ((lays_definition? fuel c hc).step fun d c₁ hc₁ hd => ?_)) fun d c₁ hc₁ hd => ?_
    · cases d with
      | some d => exact ensures_pure ⟨hc₁, hd⟩
      | none => exact Ensures.pass hc₁ Parser.passes_advance fun _ c₂ hc₂ hle => ensures_pure ⟨hc₂, hd.to_le hle⟩
    · cases d with
      | some d => exact (ih c₁ hc₁).step fun ds c₂ hc₂ hds => ensures_pure ⟨hc₂, hd.append hds⟩
      | none => exact (ih c₁ hc₁).mono fun ds c₂ h => ⟨h.1, h.2.from_le hd.le⟩

/-- A document lies before the limit. -/
theorem lays_document (fuel : Nat) (hc : c.Spaced limit) :
    Ensures (document fuel) c fun d _ => LaidOut c.offset [d.outline] limit := by
  have hrest : ∀ {c' : Cursor}, c'.Spaced limit → c.offset ≤ c'.offset → Ensures
      (do let ds ← definitions fuel
          return (⟨ds, ⟨c.offset, (← (current : Parser Token)).span.stop⟩⟩ : Document))
      c' fun d _ => LaidOut c.offset [d.outline] limit := by
    intro c' hc' hle
    refine (lays_definitions fuel c' hc').step fun ds c₁ hc₁ hds => Ensures.look (x := c₁.current) rfl (ensures_pure ?_)
    exact ((hds.from_le hle).to_le hc₁.offset_le).node.to_le (hc₁.stop _ c₁.current_mem)
  unfold document
  refine Ensures.look (x := c.offset) rfl (Ensures.test ⟨_, rfl⟩ ?_ (hrest hc (Nat.le_refl _)))
  exact Ensures.pass hc Parser.passes_unexpected fun _ c₁ hc₁ hle => hrest hc₁ hle

end Track

/-! ### Sources -/

/-- The end of the file has no byte. -/
theorem Laid.last {offset : Nat} {cs : List Char} {tokens : List Token} (h : Laid offset cs tokens) :
    ∀ t ∈ tokens, t.kind = .endOfFile → t.span.stop = t.span.start := by
  induction h with
  | stop =>
    intro t ht _
    rw [List.mem_singleton.1 ht]
    rfl
  | token _ _ _ htoken _ _ ih =>
    intro t ht hend
    rcases List.mem_cons.1 ht with rfl | ht
    · exact absurd hend htoken.kind_ne
    · exact ih t ht hend
  | cut =>
    intro t ht hend
    rcases List.mem_cons.1 ht with rfl | ht
    · exact absurd hend nofun
    · rw [List.mem_singleton.1 ht]
      rfl

/-- The first token is spaced like all tokens of a source that is not cut off. -/
theorem Cursor.spaced_ofTokens {source : String} (lines : LineIndex)
    (hwithin : ∀ t ∈ tokenize source, t.Within source) :
    (ofTokens lines (tokenize source)).Spaced source.utf8ByteSize := by
  have htiles := tiles_tokenize source
  obtain ⟨hready, errors, htokens, -, -⟩ :=
    advanceTo_spec htiles.ended (formed_tokenize source) ⟨lines, ⟨.endOfFile, .empty 0, ""⟩, tokenize source, []⟩
  have hmem : ∀ t ∈ (ofTokens lines (tokenize source)).tokens, t ∈ tokenize source := by
    intro t ht
    rw [htokens]
    exact List.mem_append_right _ ht
  have hordered := htiles.ordered
  rw [htokens] at hordered
  exact ⟨hready, (List.pairwise_append.1 hordered).2.1, fun t ht => (hwithin t (hmem t ht)).fits.le,
    fun t ht hend => (laid_tokenize source).last t (hmem t ht) hend,
    fun t ht => (hwithin t (hmem t ht)).fits.stop.le_rawEndPos⟩

/-- All tokens of a source that is read cover their texts. -/
theorem Document.within_of_parse? {source : String} {r : ParseResult} (h : Document.parse? source = some r) :
    ∀ t ∈ tokenize source, t.Within source := by
  rcases (laid_tokenize source).within_or_cut (List.nil_append _).symm rfl with hall | ⟨front, t, before, hends⟩
  · exact fun t ht => (hall t ht).1
  · have ht : t ∈ tokenize source := by
      rw [hends.tokens]
      simp
    rw [parse?_eq_none_iff.2 ⟨t, ht, hends.overruns⟩] at h
    cases h

/-- **Spans of documents nest.**  However wrong a source is, every span of its document starts before it stops, so that it has a
length, and stops within the source; it covers the spans of all that lies inside it, and the parts right inside it, among them
definitions, variables, selections, arguments, directives and names of fields of objects, follow each other without overlap. -/
theorem Document.parse?_nests {source : String} {r : ParseResult} (h : Document.parse? source = some r) :
    ∀ t ∈ r.document.outline.nodes, t.span.length? = some (t.span.stop - t.span.start) ∧
      t.span.start ≤ t.span.stop ∧ t.span.stop ≤ source.utf8ByteSize ∧ t.Nests := by
  have hr : r = ofTokens (LineIndex.ofSource source) (tokenize source) := by
    have hread := h
    unfold parse? at hread
    dsimp only at hread
    split at hread
    · cases hread
    · exact (Option.some.inj hread).symm
  let lines := LineIndex.ofSource source
  have hspaced := Cursor.spaced_ofTokens lines (within_of_parse? h)
  obtain ⟨hready, hlength, -⟩ := Cursor.accounts_ofTokens lines (ended_tokenize source) (formed_tokenize source)
  -- the fuel does not run out, so the document is the one that is read on the way
  have hfuel : 3 * (Cursor.ofTokens lines (tokenize source)).tokens.length + 4 ≤ 4 * (tokenize source).length + 16 := by omega
  obtain ⟨steps, hrun, -⟩ := Track.runs_document hready hfuel
  have hlaid := Track.lays_document _ hspaced [] _ _ _ (hrun [])
  intro t ht
  have hmem : t ∈ nodesOf [r.document.outline] := List.mem_append_left _ ht
  rw [hr] at hmem
  obtain ⟨-, hle, hstop⟩ := hlaid.bounds t hmem
  exact ⟨if_pos hle, hle, hstop, hlaid.nests hmem⟩

/-- A source in which signs, values and names are missing, and brackets are not closed. -/
def Document.brokenSource : String := "query Q \x7b a: b(c: \x7bd: $v, e \x7d @f \x7b ... on T"

/-- Eleven things are wrong with it, and the fifteen spans of its document nest. -/
theorem Document.parse?_brokenSource : ∃ r, Document.parse? brokenSource = some r ∧ r.diagnostics.length = 11 ∧
    r.document.outline.nodes.length = 15 ∧ ∀ t ∈ r.document.outline.nodes,
      t.span.length? = some (t.span.stop - t.span.start) ∧ t.span.start ≤ t.span.stop ∧
        t.span.stop ≤ brokenSource.utf8ByteSize ∧ t.Nests := by
  have hread : (Document.parse? brokenSource).map (fun r => (r.diagnostics.length, r.document.outline.nodes.length)) =
      some (11, 15) := by decide +kernel
  obtain ⟨r, hr, hcounts⟩ := Option.map_eq_some_iff.1 hread
  obtain ⟨hdiagnostics, hnodes⟩ := Prod.mk.inj hcounts
  exact ⟨r, hr, hdiagnostics, hnodes, Document.parse?_nests hr⟩

end GraphQL
