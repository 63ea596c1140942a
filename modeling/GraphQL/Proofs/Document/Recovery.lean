import GraphQL.Proofs.Document.Costs
import GraphQL.Proofs.Document.Parse

/-!
# Recovery from errors

What each production costs, whatever the tokens are.  Most productions owe a few steps at the end of the file, where they may
be entered without taking a token, and have some left elsewhere (`Cursor.cost`): they have taken a token there.  So their
loops and descents are paid for, and the fuel, which decreases with each of them, does not run out.
-/

namespace GraphQL

namespace Track

open GraphQL.Parser (current offset location spanFrom advance report atKind atPunctuator atEnd atKeyword unexpected
  expected expectPunctuator expectKeyword advanceUnlessAtEnd intLiteral stringLiteral nameLiteral operationKind?)

variable {α : Type} {c : Cursor} {k : Int} {fuel : Nat}

/-! ### Names, types and values -/

theorem costs_name (hready : Ready c.tokens) : Costs name Parser.name c (c.cost 1 15) := by
  refine Costs.enter (costs_lift ((Parser.visits_name hready).1.mono ?_))
  unfold Cursor.cost
  split <;> omega

theorem costs_type {fuel : Nat} (hready : Ready c.tokens) (hfuel : 3 * c.tokens.length ≤ fuel) :
    Costs (type fuel) (Parser.type fuel) c (c.cost 2 13) := by
  induction fuel generalizing c with
  | zero =>
    have hpos := hready.length_pos
    omega
  | succ fuel ih =>
    -- an exclamation mark that follows is taken
    have hbang : ∀ {core : TypeNode} {c : Cursor} {k : Int}, Ready c.tokens → 0 ≤ k → Costs
        (do if ← (atPunctuator .bang : Parser Bool) then
              advance
              return .nonNull core
            else return core)
        (do if ← atPunctuator .bang then
              advance
              return .nonNull core
            else return core) c k := by
      intro core c k hready hk
      refine costs_atPunctuator (fun hne => ?_) ?_
      · exact Costs.advance hready hne fun c' _ _ => costs_pure (by omega)
      · exact costs_pure hk
    unfold type Parser.type
    simp only [pure_bind]
    refine Costs.enter (costs_atPunctuator (fun hne => ?_) ?_)
    · refine Costs.advance hready hne fun c₁ hready₁ hlt => ?_
      refine ((ih hready₁ (by omega)).mono Cursor.cost_le).andThen hready₁ fun item c₂ hready₂ _ _ => ?_
      refine Costs.expect hready₂ fun c₃ hready₃ _ => ?_
      refine hbang hready₃ ?_
      rw [Cursor.cost_of_ne hne]
      omega
    · refine (costs_name hready).andThen hready fun x c₁ hready₁ _ _ => ?_
      refine hbang hready₁ ?_
      unfold Cursor.cost
      split <;> omega

/-- What has no place is reported and skipped. -/
private theorem costs_skip {x : α} (hready : Ready c.tokens) (hk : c.cost 0 16 ≤ k) :
    Costs
      (do unexpected
          advanceUnlessAtEnd
          return x)
      (do unexpected
          advanceUnlessAtEnd
          return x) c k := by
  refine Costs.stay hready (Parser.visits_unexpected hready) rfl fun _ c₁ hready₁ hstay => ?_
  refine (costs_lift (Parser.visits_advanceUnlessAtEnd hready₁)).andThen hready₁ fun _ _ _ _ _ => costs_pure ?_
  rw [Cursor.cost_congr hstay]
  omega

/-- A literal of a single token, which may be reported before it is taken. -/
private theorem costs_literal {p : Parser α} (hready : Ready c.tokens) (hne : c.current.kind ≠ .endOfFile)
    (hv : Visits c (p.run c).2 [] 0) (hstay : (p.run c).2.tokens = c.tokens) (hk : -16 ≤ k) :
    Costs
      (do let v ← (p : Parser α)
          advance
          return v)
      (do let v ← p
          advance
          return v) c k := by
  refine Costs.stay hready hv hstay fun v c₁ hready₁ hstay₁ => ?_
  have hne₁ : c₁.current.kind ≠ .endOfFile := by rwa [(List.cons.inj hstay₁).1]
  exact Costs.advance hready₁ hne₁ fun _ _ _ => costs_pure (by omega)

/-- What is between brackets costs nothing besides its tokens, so a value has taken a token unless the file ends. -/
private theorem costs_value_succ {isConst : Bool}
    (hitems : ∀ {c : Cursor}, Ready c.tokens → 3 * c.tokens.length + 1 ≤ fuel →
      Costs (listItems isConst fuel) (Parser.listItems isConst fuel) c 0)
    (hfields : ∀ {c : Cursor}, Ready c.tokens → 3 * c.tokens.length + 1 ≤ fuel →
      Costs (objectFields isConst fuel) (Parser.objectFields isConst fuel) c 0)
    (hready : Ready c.tokens) (hfuel : 3 * c.tokens.length ≤ fuel + 1) :
    Costs (value isConst (fuel + 1)) (Parser.value isConst (fuel + 1)) c (c.cost 1 14) := by
  unfold value Parser.value
  refine Costs.enter (Costs.look (x := c.current) rfl ?_)
  have hskip : c.cost 0 16 ≤ c.cost 1 14 - 1 := by
    unfold Cursor.cost
    split <;> omega
  have hcost : ∀ {kind}, c.current.kind = kind → kind ≠ .endOfFile →
      c.current.kind ≠ .endOfFile ∧ c.cost 1 14 = -14 := by
    rintro _ rfl hne
    exact ⟨hne, Cursor.cost_of_ne hne⟩
  cases hkind : c.current.kind with
  | endOfFile => exact costs_skip hready hskip
  | error => exact costs_skip hready hskip
  | name =>
    obtain ⟨hne, hcost⟩ := hcost hkind (by simp)
    exact Costs.advance hready hne fun _ _ _ => costs_pure (by omega)
  | int =>
    obtain ⟨hne, hcost⟩ := hcost hkind (by simp)
    refine costs_literal hready hne (Parser.visits_intLiteral hready) ?_ (by omega)
    unfold intLiteral
    dsimp only
    split <;> rfl
  | float =>
    obtain ⟨hne, hcost⟩ := hcost hkind (by simp)
    exact Costs.advance hready hne fun _ _ _ => costs_pure (by omega)
  | string =>
    obtain ⟨hne, hcost⟩ := hcost hkind (by simp)
    refine costs_literal hready hne (Parser.visits_stringLiteral hready) ?_ (by omega)
    unfold stringLiteral
    split <;> rfl
  | blockString =>
    obtain ⟨hne, hcost⟩ := hcost hkind (by simp)
    exact Costs.advance hready hne fun _ _ _ => costs_pure (by omega)
  | punctuator p =>
    obtain ⟨hne, hcost⟩ := hcost hkind (by simp)
    cases p with
    | dollar =>
      refine costs_ite (fun _ => costs_skip hready hskip) fun _ => ?_
      refine Costs.advance hready hne fun c₁ hready₁ _ => ?_
      exact ((costs_name hready₁).mono Cursor.cost_le).andThen hready₁ fun _ _ _ _ _ => costs_pure (by omega)
    | openBracket =>
      refine Costs.advance hready hne fun c₁ hready₁ hlt => ?_
      refine (hitems hready₁ (by omega)).andThen hready₁ fun _ c₂ hready₂ _ _ => ?_
      exact Costs.expect hready₂ fun _ _ _ => costs_pure (by omega)
    | openBrace =>
      refine Costs.advance hready hne fun c₁ hready₁ hlt => ?_
      refine (hfields hready₁ (by omega)).andThen hready₁ fun _ c₂ hready₂ _ _ => ?_
      exact Costs.expect hready₂ fun _ _ _ => costs_pure (by omega)
    | _ => exact costs_skip hready hskip

private theorem costs_values (isConst : Bool) (fuel : Nat) :
    (∀ {c : Cursor}, Ready c.tokens → 3 * c.tokens.length ≤ fuel →
      Costs (value isConst fuel) (Parser.value isConst fuel) c (c.cost 1 14)) ∧
    (∀ {c : Cursor}, Ready c.tokens → 3 * c.tokens.length + 1 ≤ fuel →
      Costs (listItems isConst fuel) (Parser.listItems isConst fuel) c 0) ∧
    (∀ {c : Cursor}, Ready c.tokens → 3 * c.tokens.length + 1 ≤ fuel →
      Costs (objectFields isConst fuel) (Parser.objectFields isConst fuel) c 0) := by
  induction fuel with
  | zero =>
    refine ⟨?_, ?_, ?_⟩ <;>
    · intro c hready hfuel
      have hpos := hready.length_pos
      omega
  | succ fuel ih =>
    obtain ⟨hvalue, hitems, hfields⟩ := ih
    refine ⟨costs_value_succ hitems hfields, ?_, ?_⟩
    · intro c hready hfuel
      unfold listItems Parser.listItems
      refine costs_loop hready (fun hne => ?_) fun c' hready' hlt => hitems hready' (by omega)
      refine (hvalue hready (by omega)).mono ?_
      rw [Cursor.cost_of_ne hne]
      omega
    · intro c hready hfuel
      rw [isLoop_objectFields]
      unfold objectFields
      refine costs_loop hready (fun hne => ?_) fun c' hready' hlt => hfields hready' (by omega)
      refine (costs_name hready).andThen hready fun key c₁ hready₁ hle _ => ?_
      refine Costs.expect hready₁ fun c₂ hready₂ hle₂ => ?_
      refine ((hvalue hready₂ (by omega)).mono Cursor.cost_le).andThen hready₂ fun v _ _ _ _ => costs_pure ?_
      rw [Cursor.cost_of_ne hne]
      omega

theorem costs_value {isConst : Bool} (hready : Ready c.tokens) (hfuel : 3 * c.tokens.length ≤ fuel) :
    Costs (value isConst fuel) (Parser.value isConst fuel) c (c.cost 1 14) := (costs_values isConst fuel).1 hready hfuel

/-! ### Arguments and directives -/

theorem costs_argumentList (hready : Ready c.tokens) (hfuel : 3 * c.tokens.length + 1 ≤ fuel) :
    Costs (argumentList fuel) (Parser.argumentList fuel) c (c.cost 3 13) := by
  induction fuel generalizing c with
  | zero => omega
  | succ fuel ih =>
    rw [isLoop_argumentList]
    unfold argumentList
    refine costs_loop₁ hready ?_ (by omega) fun c' hready' hlt hne' => ?_
    · unfold Parser.argument Parser.namedValue
      simp only [bind_assoc, pure_bind]
      refine Costs.look rfl ?_
      refine (costs_name hready).andThen hready fun key c₁ hready₁ hle _ => ?_
      refine Costs.expect hready₁ fun c₂ hready₂ hle₂ => ?_
      refine ((costs_value hready₂ (by omega)).mono Cursor.cost_le).andThen hready₂ fun v c₃ hready₃ _ _ => ?_
      refine Costs.look rfl (costs_pure ?_)
      unfold Cursor.cost
      split <;> omega
    · refine (ih hready' (by omega)).mono ?_
      rw [Cursor.cost_of_ne hne']
      omega

theorem costs_arguments (hready : Ready c.tokens) (hfuel : 3 * c.tokens.length ≤ fuel) :
    Costs (arguments fuel) (Parser.arguments fuel) c 1 := by
  unfold arguments Parser.arguments
  refine Costs.within (costs_atPunctuator (fun hne => ?_) (costs_pure (by omega))) nofun
  refine Costs.advance hready hne fun c₁ hready₁ hlt => ?_
  refine ((costs_argumentList hready₁ (by omega)).mono Cursor.cost_le).andThen hready₁ fun args c₂ hready₂ _ _ => ?_
  exact Costs.expect hready₂ fun _ _ _ => costs_pure (by omega)

private theorem costs_directiveList (hready : Ready c.tokens) (hfuel : 3 * c.tokens.length ≤ fuel) :
    Costs (directiveList fuel) (Parser.directives fuel) c 0 := by
  induction fuel generalizing c with
  | zero =>
    have hpos := hready.length_pos
    omega
  | succ fuel ih =>
    have hround : c.current.kind ≠ .endOfFile → Costs
        (within (.round .directives) do
          let start ← (offset : Parser Nat)
          advance
          let key ← name
          let args ← arguments fuel
          return (⟨key, args, ← (spanFrom start : Parser Span)⟩ : Directive))
        (do
          let start ← offset
          advance
          let key ← Parser.name
          let args ← Parser.arguments fuel
          return ⟨key, args, ← spanFrom start⟩) c (-13) := by
      intro hne
      refine Costs.within (Costs.look rfl ?_) fun _ _ => by omega
      refine Costs.advance hready hne fun c₁ hready₁ hlt => ?_
      refine ((costs_name hready₁).mono Cursor.cost_le).andThen hready₁ fun key c₂ hready₂ hle _ => ?_
      refine (costs_arguments hready₂ (by omega)).andThen hready₂ fun args c₃ _ _ _ => ?_
      exact Costs.look rfl (costs_pure (by omega))
    have hshape : Parser.directives (fuel + 1) = (do
        if ← atPunctuator .atSign then
          let directive ← (do
            let start ← offset
            advance
            let key ← Parser.name
            let args ← Parser.arguments fuel
            return (⟨key, args, ← spanFrom start⟩ : Directive))
          return directive :: (← Parser.directives fuel)
        else return []) := by
      rw [Parser.directives]
      simp only [bind_assoc, pure_bind]
    rw [hshape]
    unfold directiveList
    refine costs_atPunctuator (fun hne => ?_) (costs_pure (by omega))
    refine (hround hne).andThen hready fun directive c₁ hready₁ _ hlt => ?_
    have hlt := hlt (by omega)
    exact (ih hready₁ (by omega)).andThen hready₁ fun _ _ _ _ _ => costs_pure (by omega)

theorem costs_directives (hready : Ready c.tokens) (hfuel : 3 * c.tokens.length ≤ fuel) :
    Costs (directives fuel) (Parser.directives fuel) c 1 :=
  Costs.within (costs_directiveList hready hfuel) nofun

/-! ### Selections -/

section

variable (hset : ∀ {c : Cursor}, Ready c.tokens → 3 * c.tokens.length + 3 ≤ fuel →
  Costs (selectionSet fuel) (Parser.selectionSet fuel) c (c.cost 7 4))
include hset

/-- The end of an operation or a fragment. -/
private theorem costs_body {x : List Directive → SelectionSet → Span → α} (start : Nat) (hready : Ready c.tokens)
    (hfuel : 3 * c.tokens.length + 3 ≤ fuel) (hk : 8 ≤ k) : Costs
      (do let ds ← directives fuel
          let set ← selectionSet fuel
          return x ds set (← (spanFrom start : Parser Span)))
      (do let ds ← Parser.directives fuel
          let set ← Parser.selectionSet fuel
          return x ds set (← spanFrom start)) c k := by
  refine (costs_directives hready (by omega)).andThen hready fun ds c₁ hready₁ _ _ => ?_
  refine ((hset hready₁ (by omega)).mono Cursor.cost_le).andThen hready₁ fun set c₂ _ _ _ => ?_
  exact Costs.look rfl (costs_pure (by omega))

/-- What follows the name of a field.  There is fuel for a selection set unless the file has ended. -/
private theorem costs_fieldRest {x : List Argument → List Directive → Option SelectionSet → Span → α} {start : Nat}
    (hready : Ready c.tokens) (hfuel : 3 * c.tokens.length ≤ fuel)
    (hopen : c.current.kind ≠ .endOfFile → 3 * c.tokens.length + 3 ≤ fuel) (hk : 2 ≤ k) : Costs
      (do let args ← arguments fuel
          let ds ← directives fuel
          if ← (atPunctuator .openBrace : Parser Bool) then
            let set ← selectionSet fuel
            return x args ds (some set) (← (spanFrom start : Parser Span))
          else return x args ds none (← (spanFrom start : Parser Span)))
      (do let args ← Parser.arguments fuel
          let ds ← Parser.directives fuel
          if ← atPunctuator .openBrace then
            let set ← Parser.selectionSet fuel
            return x args ds (some set) (← spanFrom start)
          else return x args ds none (← spanFrom start)) c k := by
  refine (costs_arguments hready hfuel).bind fun args c₁ _ _ h₁ => ?_
  have hready₁ := h₁.reaches.ready hready
  have hle₁ := h₁.length_le
  refine (costs_directives hready₁ (by omega)).bind fun ds c₂ _ _ h₂ => ?_
  have hready₂ := h₂.reaches.ready hready₁
  have hle₂ := h₂.length_le
  refine costs_atPunctuator (fun hne₂ => ?_) (Costs.look rfl (costs_pure (by omega)))
  have hfuel₂ := hopen fun hend => hne₂ (h₂.at_end hready₁ (h₁.at_end hready hend))
  refine ((hset hready₂ (by omega)).mono (Int.le_of_eq (Cursor.cost_of_ne hne₂))).andThen hready₂ fun set c₃ _ _ _ => ?_
  exact Costs.look rfl (costs_pure (by omega))

private theorem costs_selection_succ (hready : Ready c.tokens) (hfuel : 3 * c.tokens.length ≤ fuel) :
    Costs (selection (fuel + 1)) (Parser.selection (fuel + 1)) c (c.cost 5 6) := by
  unfold selection Parser.selection
  refine Costs.enter (Costs.look rfl (costs_atPunctuator (fun hne => ?_) ?_))
  · -- three dots
    rw [Cursor.cost_of_ne hne]
    refine Costs.advance hready hne fun c₁ hready₁ hlt => ?_
    refine costs_atKeyword (fun hne₁ => ?_) ?_
    · refine Costs.advance hready₁ hne₁ fun c₂ hready₂ hlt₂ => ?_
      refine ((costs_name hready₂).mono Cursor.cost_le).andThen hready₂ fun condition c₃ hready₃ hle _ => ?_
      exact costs_body hset (x := fun ds set span => Selection.inline ⟨some condition, ds, set, span⟩) _ hready₃ (by omega)
        (by omega)
    · have hinline := costs_body hset (k := -6 - 1 + 16) (x := fun ds set span => Selection.inline ⟨none, ds, set, span⟩)
        c.current.span.start hready₁ (by omega) (by omega)
      refine costs_atPunctuator (fun _ => Costs.look rfl hinline) (costs_atPunctuator (fun _ => hinline) ?_)
      refine ((costs_name hready₁).mono Cursor.cost_le).andThen hready₁ fun key c₂ hready₂ hle _ => ?_
      refine (costs_directives hready₂ (by omega)).andThen hready₂ fun ds c₃ _ _ _ => ?_
      exact Costs.look rfl (costs_pure (by omega))
  · -- a field
    refine Costs.mono (k := c.cost 4 12) (Costs.enter (Costs.look rfl ?_)) ?_
    · refine (costs_name hready).bind fun first c₁ _ _ h₁ => ?_
      have hready₁ := h₁.reaches.ready hready
      have hle := h₁.length_le
      have hopen : c₁.current.kind ≠ .endOfFile → 3 * c₁.tokens.length + 3 ≤ fuel := by
        intro hne₁
        have hne : c.current.kind ≠ .endOfFile := fun hend => hne₁ (h₁.at_end hready hend)
        rw [Cursor.cost_of_ne hne] at h₁
        have hlt := h₁.length_lt (by omega)
        omega
      have hk : 2 ≤ c.cost 4 12 - 1 - c.cost 1 15 := by
        unfold Cursor.cost
        split <;> omega
      simp only [pure_bind]
      refine costs_atPunctuator (fun hne₁ => ?_) ?_
      · have hfuel₁ := hopen hne₁
        refine Costs.advance hready₁ hne₁ fun c₂ hready₂ hlt₂ => ?_
        refine ((costs_name hready₂).mono Cursor.cost_le).andThen hready₂ fun key c₃ hready₃ hle₃ _ => ?_
        exact costs_fieldRest hset (x := fun args ds set span => Selection.field ⟨some first, key, args, ds, set, span, _⟩) hready₃ (by omega)
          (fun _ => by omega) (by omega)
      · exact costs_fieldRest hset (x := fun args ds set span => Selection.field ⟨none, first, args, ds, set, span, _⟩) hready₁ (by omega) hopen hk
    · unfold Cursor.cost
      split <;> omega

end

private theorem costs_selections (fuel : Nat) :
    (∀ {c : Cursor}, Ready c.tokens → 3 * c.tokens.length + 3 ≤ fuel →
      Costs (selectionSet fuel) (Parser.selectionSet fuel) c (c.cost 7 4)) ∧
    (∀ {c : Cursor}, Ready c.tokens → 3 * c.tokens.length + 2 ≤ fuel →
      Costs (selectionList fuel) (Parser.selectionList fuel) c (c.cost 6 5)) ∧
    (∀ {c : Cursor}, Ready c.tokens → 3 * c.tokens.length + 1 ≤ fuel →
      Costs (selection fuel) (Parser.selection fuel) c (c.cost 5 6)) := by
  induction fuel with
  | zero =>
    refine ⟨?_, ?_, ?_⟩ <;>
    · intro c hready hfuel
      omega
  | succ fuel ih =>
    obtain ⟨hset, hlist, hselection⟩ := ih
    refine ⟨?_, ?_, fun hready hfuel => costs_selection_succ hset hready (by omega)⟩
    · intro c hready hfuel
      unfold selectionSet Parser.selectionSet
      refine Costs.enter (Costs.look rfl (Costs.expectCases hready (fun hne c₁ hready₁ hlt => ?_) fun c₁ hready₁ hstay => ?_))
      · refine ((hlist hready₁ (by omega)).mono Cursor.cost_le).andThen hready₁ fun selections c₂ hready₂ _ _ => ?_
        refine Costs.expect hready₂ fun c₃ _ _ => Costs.look rfl (costs_pure ?_)
        rw [Cursor.cost_of_ne hne]
        omega
      · refine (hlist hready₁ (by rw [hstay]; omega)).andThen hready₁ fun selections c₂ hready₂ _ _ => ?_
        refine Costs.expect hready₂ fun c₃ _ _ => Costs.look rfl (costs_pure ?_)
        rw [Cursor.cost_congr hstay]
        unfold Cursor.cost
        split <;> omega
    · intro c hready hfuel
      unfold selectionList Parser.selectionList
      refine costs_loop₁ hready ((hselection hready (by omega)).mono ?_) (by omega) fun c' hready' hlt hne' => ?_
      · unfold Cursor.cost
        split <;> omega
      · refine (hlist hready' (by omega)).mono ?_
        rw [Cursor.cost_of_ne hne']
        omega

theorem costs_selectionSet (hready : Ready c.tokens) (hfuel : 3 * c.tokens.length + 3 ≤ fuel) :
    Costs (selectionSet fuel) (Parser.selectionSet fuel) c (c.cost 7 4) := (costs_selections fuel).1 hready hfuel

/-! ### Definitions -/

theorem costs_variableDefinition (hready : Ready c.tokens) (hfuel : 3 * c.tokens.length ≤ fuel) :
    Costs (variableDefinition fuel) (Parser.variableDefinition fuel) c (c.cost 5 11) := by
  -- what follows the name of a variable
  have hrest : ∀ {c' : Cursor} {k : Int} {x : TypeNode → Option Literal → List Directive → Span → VariableDefinition}
      {start : Nat}, Ready c'.tokens → c'.tokens.length ≤ c.tokens.length → 3 ≤ k → Costs
        (do expectPunctuator .colon
            let ty ← type fuel
            let default ←
              if ← (atPunctuator .equals : Parser Bool) then
                advance
                pure (some (← value true fuel))
              else pure none
            let ds ← directives fuel
            return x ty default ds (← (spanFrom start : Parser Span)))
        (do expectPunctuator .colon
            let ty ← Parser.type fuel
            let default ←
              if ← atPunctuator .equals then
                advance
                pure (some (← Parser.value true fuel))
              else pure none
            let ds ← Parser.directives fuel
            return x ty default ds (← spanFrom start)) c' k := by
    intro c' k x start hready' hle hk
    simp only [pure_bind]
    refine Costs.expect hready' fun c₁ hready₁ hle₁ => ?_
    refine ((costs_type hready₁ (by omega)).mono Cursor.cost_le).andThen hready₁ fun ty c₂ hready₂ hle₂ _ => ?_
    refine costs_atPunctuator (fun hne₂ => Costs.advance hready₂ hne₂ fun c₃ hready₃ hlt₃ => ?_) ?_
    · refine ((costs_value hready₃ (by omega)).mono Cursor.cost_le).andThen hready₃ fun v c₄ hready₄ hle₄ _ => ?_
      refine (costs_directives hready₄ (by omega)).andThen hready₄ fun ds c₅ _ _ _ => ?_
      exact Costs.look rfl (costs_pure (by omega))
    · refine (costs_directives hready₂ (by omega)).andThen hready₂ fun ds c₃ _ _ _ => ?_
      exact Costs.look rfl (costs_pure (by omega))
  simp only [pure_bind] at hrest
  unfold variableDefinition Parser.variableDefinition
  simp only [pure_bind]
  refine Costs.enter (Costs.look rfl (Costs.look rfl ?_))
  refine Costs.expectCases hready (fun hne c₁ hready₁ hlt => ?_) fun c₁ hready₁ hstay => ?_
  · refine ((costs_name hready₁).mono Cursor.cost_le).andThen hready₁ fun key c₂ hready₂ hle _ => ?_
    refine hrest (x := fun ty default ds span => ⟨key, ty, default, ds, span, _⟩) hready₂ (by omega) ?_
    rw [Cursor.cost_of_ne hne]
    omega
  · refine (costs_name hready₁).andThen hready₁ fun key c₂ hready₂ hle _ => ?_
    rw [hstay] at hle
    refine hrest (x := fun ty default ds span => ⟨key, ty, default, ds, span, _⟩) hready₂ hle ?_
    rw [Cursor.cost_congr hstay]
    unfold Cursor.cost
    split <;> omega

theorem costs_variableDefinitions (hready : Ready c.tokens) (hfuel : 3 * c.tokens.length + 1 ≤ fuel) :
    Costs (variableDefinitions fuel) (Parser.variableDefinitions fuel) c 0 := by
  induction fuel generalizing c with
  | zero => omega
  | succ fuel ih =>
    unfold variableDefinitions Parser.variableDefinitions
    refine costs_loop hready (fun hne => ?_) fun c' hready' hlt => ih hready' (by omega)
    refine (costs_variableDefinition hready (by omega)).mono ?_
    rw [Cursor.cost_of_ne hne]
    omega

theorem costs_operation {kind : OperationKind} (hready : Ready c.tokens) (hne : c.current.kind ≠ .endOfFile)
    (hfuel : 3 * c.tokens.length ≤ fuel) : Costs (operation fuel kind) (Parser.operation fuel kind) c (-3) := by
  -- what follows the name of an operation
  have hrest : ∀ {c' : Cursor} {k : Int} {key : Option Name} {start : Nat}, Ready c'.tokens →
      c'.tokens.length < c.tokens.length → 8 ≤ k → Costs
        (do let variableDefs ←
              if ← (atPunctuator .openParen : Parser Bool) then
                advance
                let vs ← variableDefinitions fuel
                expectPunctuator .closeParen
                pure vs
              else pure []
            let ds ← directives fuel
            let set ← selectionSet fuel
            return (⟨kind, key, variableDefs, ds, set, ← (spanFrom start : Parser Span)⟩ : Operation))
        (do let variableDefs ←
              if ← atPunctuator .openParen then
                advance
                let vs ← Parser.variableDefinitions fuel
                expectPunctuator .closeParen
                pure vs
              else pure []
            let ds ← Parser.directives fuel
            let set ← Parser.selectionSet fuel
            return ⟨kind, key, variableDefs, ds, set, ← spanFrom start⟩) c' k := by
    intro c' k key start hready' hlt hk
    simp only [pure_bind]
    refine costs_atPunctuator (fun hne' => Costs.advance hready' hne' fun c₁ hready₁ hlt₁ => ?_) ?_
    · refine (costs_variableDefinitions hready₁ (by omega)).andThen hready₁ fun vs c₂ hready₂ hle₂ _ => ?_
      refine Costs.expect hready₂ fun c₃ hready₃ hle₃ => ?_
      exact costs_body costs_selectionSet (x := Operation.mk kind key vs) _ hready₃ (by omega) (by omega)
    · exact costs_body costs_selectionSet (x := Operation.mk kind key []) _ hready' (by omega) hk
  simp only [pure_bind] at hrest
  unfold operation Parser.operation
  simp only [pure_bind]
  refine Costs.within (Costs.look rfl (Costs.advance hready hne fun c₁ hready₁ hlt => ?_)) fun _ _ => by omega
  refine Costs.look rfl (costs_ite (fun _ => ?_) fun _ => ?_)
  · refine ((costs_name hready₁).mono Cursor.cost_le).andThen hready₁ fun key c₂ hready₂ hle _ => ?_
    exact hrest hready₂ (by omega) (by omega)
  · exact hrest hready₁ hlt (by omega)

theorem costs_anonymousQuery (hready : Ready c.tokens) (hne : c.current.kind ≠ .endOfFile)
    (hfuel : 3 * c.tokens.length + 3 ≤ fuel) : Costs (anonymousQuery fuel) (Parser.anonymousQuery fuel) c (-3) := by
  unfold anonymousQuery Parser.anonymousQuery
  refine Costs.within (Costs.look rfl ?_) fun _ _ => by omega
  refine ((costs_selectionSet hready hfuel).mono (Int.le_of_eq (Cursor.cost_of_ne hne))).andThen hready fun set c₁ _ _ _ => ?_
  exact Costs.look rfl (costs_pure (by omega))

theorem costs_fragment (hready : Ready c.tokens) (hne : c.current.kind ≠ .endOfFile)
    (hfuel : 3 * c.tokens.length ≤ fuel) : Costs (fragment fuel) (Parser.fragment fuel) c (-3) := by
  -- what follows the name of a fragment
  have hrest : ∀ {c' : Cursor} {key : Name} {start : Nat}, Ready c'.tokens → c'.tokens.length < c.tokens.length → Costs
        (do expectKeyword "on"
            let condition ← name
            let ds ← directives fuel
            let set ← selectionSet fuel
            return (⟨key, condition, ds, set, ← (spanFrom start : Parser Span)⟩ : Fragment))
        (do expectKeyword "on"
            let condition ← Parser.name
            let ds ← Parser.directives fuel
            let set ← Parser.selectionSet fuel
            return ⟨key, condition, ds, set, ← spanFrom start⟩) c' 9 := by
    intro c' key start hready' hlt
    refine (costs_lift (Parser.visits_expectKeyword "on" hready')).andThen hready' fun _ c₁ hready₁ hle₁ _ => ?_
    refine ((costs_name hready₁).mono Cursor.cost_le).andThen hready₁ fun condition c₂ hready₂ hle₂ _ => ?_
    exact costs_body costs_selectionSet (x := Fragment.mk key condition) _ hready₂ (by omega) (by omega)
  unfold fragment Parser.fragment
  refine Costs.within (Costs.look rfl (Costs.advance hready hne fun c₁ hready₁ hlt => ?_)) fun _ _ => by omega
  refine Runs.bind (costs_name hready₁) fun key c₂ s hrun hv => ?_
  have hspan : key.span = c₁.current.span := by
    have hname := (Parser.visits_name hready₁).2
    rwa [hrun] at hname
  have hgoOn : ∀ {c₃ : Cursor} {s : List Step} {start : Nat}, Visits c₁ c₃ s (c₁.cost 1 15) → Runs
      (do expectKeyword "on"
          let condition ← name
          let ds ← directives fuel
          let set ← selectionSet fuel
          return (⟨key, condition, ds, set, ← (spanFrom start : Parser Span)⟩ : Fragment))
      (do expectKeyword "on"
          let condition ← Parser.name
          let ds ← Parser.directives fuel
          let set ← Parser.selectionSet fuel
          return ⟨key, condition, ds, set, ← spanFrom start⟩) c₃ fun _ c' s' => Visits c₁ c' (s' ++ s) 10 := by
    intro c₃ s start hv
    have hle := hv.length_le
    refine Runs.mono (hrest (hv.reaches.ready hready₁) (by omega)) fun hv' => (hv.trans hv').mono ?_
    have hcost : c₁.cost 1 15 ≤ 1 := Cursor.cost_le
    omega
  split
  · -- the report is at the span of the token that was taken as the name
    refine Runs.bind (runs_lift (P := fun _ c₃ s' => Visits c₁ c₃ (s' ++ s) (c₁.cost 1 15))
      ⟨hv.reaches.report (List.mem_cons_self ..) hready₁.noError hspan rfl, hv.moves, hv.count⟩) fun _ c₃ s' _ hv₃ => ?_
    refine Runs.mono (hgoOn hv₃) fun {_ _ s''} hv' => ?_
    rw [List.append_assoc]
    exact hv'.mono (by omega)
  · exact Runs.mono (hgoOn hv) fun hv' => hv'.mono (by omega)

/-- A definition is read, or the cursor stays at a token that opens none. -/
structure Defines (c : Cursor) (d? : Option Definition) (c' : Cursor) (steps : List Step) : Prop where
  some : d?.isSome = true → Visits c c' steps (-2)
  none : d? = .none → Visits c c' steps 1 ∧ c'.tokens = c.tokens

theorem defines_definition? (hready : Ready c.tokens) (hne : c.current.kind ≠ .endOfFile)
    (hfuel : 3 * c.tokens.length + 3 ≤ fuel) : Runs (definition? fuel) (Parser.definition? fuel) c (Defines c) := by
  have hfound : ∀ {α : Type} {q : Track α} {p : Parser α} {d : α → Definition}, Costs q p c (-3) →
      Runs (do return some (d (← q))) (do return some (d (← p))) c fun d? c' s =>
        Defines c d? c' (⟨.definition, c.tokens, c'.tokens⟩ :: s) := by
    intro α q p d h
    refine Runs.bind h fun x c' s _ hv => runs_pure ⟨fun _ => ?_, nofun⟩
    exact Visits.cons (hv.mono (by omega)) nofun
  have hmissing : Runs
      (do unexpected
          return none)
      (do unexpected
          return none) c fun d? c' s => Defines c d? c' (⟨.definition, c.tokens, c'.tokens⟩ :: s) := by
    have hv := Parser.visits_unexpected hready
    refine Runs.bind (runs_lift (P := fun _ c' s => Visits c c' s 0 ∧ c'.tokens = c.tokens) ⟨hv, rfl⟩) fun _ c' s _ h => ?_
    exact runs_pure ⟨nofun, fun _ => ⟨Visits.cons (h.1.mono (by omega)) nofun, h.2⟩⟩
  unfold definition? Parser.definition?
  refine Runs.within (Runs.look (x := c.current) rfl ?_)
  cases hkind : c.current.kind with
  | name =>
    dsimp only
    cases operationKind? c.current.text with
    | some kind => exact hfound (costs_operation hready hne (by omega))
    | none =>
      dsimp only
      split
      · exact hfound (costs_fragment hready hne (by omega))
      · exact hmissing
  | punctuator p =>
    cases p with
    | openBrace => exact hfound (costs_anonymousQuery hready hne hfuel)
    | _ => exact hmissing
  | _ => exact hmissing

/-- A round of the loop over definitions: a token that opens none is skipped. -/
def definitionRound (fuel : Nat) : Parser (Option Definition) := do
  match ← Parser.definition? fuel with
  | some d => return some d
  | none =>
    advance
    return none

theorem definitions_eq (fuel : Nat) :
    Parser.definitions (fuel + 1) = (do
      if ← atEnd then return []
      else
        match ← definitionRound fuel with
        | some d => return d :: (← Parser.definitions fuel)
        | none => Parser.definitions fuel) := by
  have hround : (do
      let d? ← Parser.definition? fuel
      Parser.definitionsFrom fuel d?) = (do
      match ← definitionRound fuel with
      | some d => return d :: (← Parser.definitions fuel)
      | none => Parser.definitions fuel) := by
    unfold definitionRound
    rw [bind_assoc]
    refine congrArg _ (funext fun d? => ?_)
    cases d? with
    | some d => simp [Parser.definitionsFrom]
    | none => simp [Parser.definitionsFrom]
  rw [Parser.definitions_succ, hround]

theorem costs_definitionRound (hready : Ready c.tokens) (hne : c.current.kind ≠ .endOfFile)
    (hfuel : 3 * c.tokens.length + 3 ≤ fuel) : Costs
      (within (.round .definitions) do
        match ← definition? fuel with
        | some d => return some d
        | none =>
          advance
          return none)
      (definitionRound fuel) c (-1) := by
  unfold definitionRound
  refine Costs.within (Runs.bind (defines_definition? hready hne hfuel) fun d? c' s _ h => ?_) fun _ _ => by omega
  cases d? with
  | some d => exact runs_pure (h.some rfl)
  | none =>
    obtain ⟨hv, hstay⟩ := h.none rfl
    have hready' := hv.reaches.ready hready
    have hne' : c'.current.kind ≠ .endOfFile := by rwa [(List.cons.inj hstay).1]
    refine Runs.mono (Costs.advance (k := -16) hready' hne' fun c'' _ _ => costs_pure (by omega)) fun hv' => ?_
    exact (hv.trans hv').mono (by omega)

theorem runs_definitions (hready : Ready c.tokens) (hfuel : 3 * c.tokens.length + 4 ≤ fuel) :
    Runs (definitions fuel) (Parser.definitions fuel) c fun _ c' s => Visits c c' s 0 ∧ c'.current.kind = .endOfFile := by
  induction fuel generalizing c with
  | zero => omega
  | succ fuel ih =>
    rw [definitions_eq]
    unfold definitions
    refine Runs.look (x := decide (c.current.kind = .endOfFile)) rfl ?_
    by_cases hend : c.current.kind = .endOfFile
    · rw [decide_eq_true hend]
      exact runs_pure ⟨Visits.refl c, hend⟩
    · rw [decide_eq_false hend]
      refine Runs.bind (costs_definitionRound hready hend (by omega)) fun d? c₁ s _ h₁ => ?_
      have hlt := h₁.length_lt (by omega)
      have hrest := ih (h₁.reaches.ready hready) (by omega)
      have hall : ∀ {c' : Cursor} {s' : List Step}, Visits c₁ c' s' 0 ∧ c'.current.kind = .endOfFile →
          Visits c c' (s' ++ s) 0 ∧ c'.current.kind = .endOfFile :=
        fun h => ⟨(h₁.trans h.1).mono (by omega), h.2⟩
      cases d? with
      | some d => exact Runs.bind hrest fun ds c' s' _ h => runs_pure (hall h)
      | none => exact Runs.mono hrest hall

/-- The reader gets from any tokens to the end of the file. -/
theorem runs_document (hready : Ready c.tokens) (hfuel : 3 * c.tokens.length + 4 ≤ fuel) :
    Runs (document fuel) (Parser.document fuel) c fun _ c' s => Visits c c' s 0 ∧ c'.current.kind = .endOfFile := by
  have hrest : ∀ {c' : Cursor} {start : Nat}, Ready c'.tokens → c'.tokens.length ≤ c.tokens.length → Runs
      (do let ds ← definitions fuel
          return (⟨ds, ⟨start, (← (current : Parser Token)).span.stop⟩⟩ : Document))
      (do let ds ← Parser.definitions fuel
          return ⟨ds, ⟨start, (← current).span.stop⟩⟩)
      c' fun _ c'' s => Visits c' c'' s 0 ∧ c''.current.kind = .endOfFile := by
    intro c' start hready' hle
    exact Runs.bind (runs_definitions hready' (by omega)) fun ds c₁ s _ h => Runs.look rfl (runs_pure h)
  unfold document Parser.document
  refine Runs.look rfl (Runs.look (x := decide (c.current.kind = .endOfFile)) rfl ?_)
  dsimp only
  split
  · refine Runs.bind (runs_lift (P := fun _ c' s => Visits c c' s 0) (Parser.visits_unexpected hready)) fun _ c' s _ hv => ?_
    refine Runs.mono (hrest (hv.reaches.ready hready) hv.length_le) fun h => ?_
    exact ⟨(hv.trans h.1).mono (by omega), h.2⟩
  · exact hrest hready (Nat.le_refl _)

end Track

end GraphQL
