import GraphQL.Proofs.Document.Tracked

/-!
# Moving on

A cursor moves on over the tokens of a file, and what is reported on the way accounts for them (`Cursor.Reaches`): each
error token is reported once, as it is passed, and everything else that is reported is at the span of another token.

`Visits c c' steps k` says besides that what was entered on the way took tokens, and that it is no more than sixteen
productions for each token on the way and `k` besides.  So `k` is what a parser may owe, and if it is negative, the parser
has taken a token.
-/

namespace GraphQL

open Grammar

/-! ### Ways of a cursor -/

/-- Whether a problem is one of a single token, which is reported as the cursor passes it. -/
def Problem.isLexical : Problem → Bool
  | invalidCharacter | invalidNumberToken | unterminatedString => true
  | _ => false

namespace Cursor

/-- What a parser may have reported on its way over the tokens `taken`: for each error token what is wrong with it, in order,
and between these any problems at the other tokens of the file. -/
structure Accounts (all taken : List Token) (reports : List Diagnostic) : Prop where
  errors : reports.reverse.filter (·.problem.isLexical) = (taken.filter (·.kind = .error)).map diagnoseError
  others : ∀ d ∈ reports, d.problem.isLexical = false → ∃ t ∈ all, t.kind ≠ .error ∧ d.span = t.span

/-- A cursor has moved on, and accounts for the tokens on its way. -/
structure Reaches (c c' : Cursor) : Prop where
  ready : Ready c.tokens → Ready c'.tokens
  way : ∃ taken reports, c.tokens = taken ++ c'.tokens ∧ c'.reports = reports ++ c.reports ∧
    Accounts c.tokens taken reports

theorem accounts_nil (all : List Token) : Accounts all [] [] := ⟨rfl, nofun⟩

theorem Accounts.append {all all' taken taken' : List Token} {reports reports' : List Diagnostic}
    (h : Accounts all taken reports) (h' : Accounts all' taken' reports') (hsubset : ∀ t ∈ all', t ∈ all) :
    Accounts all (taken ++ taken') (reports' ++ reports) := by
  constructor
  · rw [List.reverse_append, List.filter_append, List.filter_append, List.map_append, h.errors, h'.errors]
  · intro d hd hlexical
    rcases List.mem_append.1 hd with hd | hd
    · obtain ⟨t, ht, hkind, hspan⟩ := h'.others d hd hlexical
      exact ⟨t, hsubset t ht, hkind, hspan⟩
    · exact h.others d hd hlexical

variable {c c' c'' : Cursor}

theorem Reaches.refl (c : Cursor) : c.Reaches c := ⟨id, [], [], rfl, rfl, accounts_nil _⟩

theorem Reaches.trans (h : c.Reaches c') (h' : c'.Reaches c'') : c.Reaches c'' := by
  obtain ⟨hready, taken, reports, htokens, hreports, haccounts⟩ := h
  obtain ⟨hready', taken', reports', htokens', hreports', haccounts'⟩ := h'
  refine ⟨hready' ∘ hready, taken ++ taken', reports' ++ reports, ?_, ?_, haccounts.append haccounts' ?_⟩
  · rw [htokens, htokens', List.append_assoc]
  · rw [hreports', hreports, List.append_assoc]
  · intro t ht
    rw [htokens]
    exact List.mem_append_right _ ht

theorem Reaches.suffix (h : c.Reaches c') : c'.tokens <:+ c.tokens := by
  obtain ⟨-, taken, -, htokens, -, -⟩ := h
  exact ⟨taken, htokens.symm⟩

theorem diagnoseError_isLexical (t : Token) : (diagnoseError t).problem.isLexical = true := by
  unfold diagnoseError
  split
  · rfl
  · split <;> rfl
  · rfl

theorem diagnoseError_span (t : Token) : (diagnoseError t).span = t.span := by
  unfold diagnoseError
  split
  · rfl
  · split <;> rfl
  · rfl

/-- Moving on to tokens that end with the end of the file passes the errors in front of them. -/
theorem advanceTo_spec {ts : List Token} (hended : Ended ts) (hformed : ∀ t ∈ ts, t.Formed) (c : Cursor) :
    Ready (advanceTo ts c).tokens ∧ ∃ errors, ts = errors ++ (advanceTo ts c).tokens ∧ (∀ t ∈ errors, t.kind = .error) ∧
      (advanceTo ts c).reports = (errors.map diagnoseError).reverse ++ c.reports := by
  induction ts generalizing c with
  | nil => exact absurd rfl hended.ne_nil
  | cons t rest ih =>
    unfold advanceTo
    split
    · rename_i herror
      have hne : t.kind ≠ .endOfFile := by
        rw [herror]
        decide
      obtain ⟨hready, errors, hrest, hkinds, hreports⟩ :=
        ih (hended.tail hne) (List.forall_mem_cons.1 hformed).2 { c with rest := rest, reports := diagnoseError t :: c.reports }
      refine ⟨hready, t :: errors, congrArg (t :: ·) hrest, ?_, ?_⟩
      · intro u hu
        rcases List.mem_cons.1 hu with rfl | hu
        · exact herror
        · exact hkinds u hu
      · rw [hreports]
        simp
    · rename_i herror
      exact ⟨⟨hended, hformed, herror⟩, [], rfl, by simp, rfl⟩

theorem accounts_errors (all : List Token) {errors : List Token} (h : ∀ t ∈ errors, t.kind = .error) :
    Accounts all errors (errors.map diagnoseError).reverse := by
  constructor
  · rw [List.reverse_reverse, List.filter_eq_self.2 (by simp [diagnoseError_isLexical]),
      List.filter_eq_self.2 (by simpa using h)]
  · intro d hd hlexical
    obtain ⟨t, -, rfl⟩ := List.mem_map.1 (List.mem_reverse.1 hd)
    rw [diagnoseError_isLexical] at hlexical
    cases hlexical

/-- Moving on takes the token under the cursor, and the errors after it. -/
theorem reaches_advance (hready : Ready c.tokens) (hne : c.current.kind ≠ .endOfFile) :
    c.Reaches (c.advanceTo c.rest) ∧ (c.advanceTo c.rest).tokens.length < c.tokens.length := by
  obtain ⟨hready', errors, hrest, hkinds, hreports⟩ :=
    advanceTo_spec (hready.ended.tail hne) (List.forall_mem_cons.1 hready.formed).2 c
  constructor
  · refine ⟨fun _ => hready', c.current :: errors, (errors.map diagnoseError).reverse, ?_, hreports, ?_⟩
    · exact congrArg (c.current :: ·) hrest
    · obtain ⟨herrors, hothers⟩ := accounts_errors c.tokens hkinds
      refine ⟨?_, hothers⟩
      rw [herrors, List.filter_cons_of_neg (by simpa using show c.current.kind ≠ .error from hready.noError)]
  · have hlength := congrArg List.length hrest
    rw [List.length_append] at hlength
    show _ < c.rest.length + 1
    omega

/-- A report of anything but a single token is at the span of a token that was left. -/
theorem Reaches.report (h : c.Reaches c') {d : Diagnostic} {t : Token} (ht : t ∈ c.tokens) (hkind : t.kind ≠ .error)
    (hspan : d.span = t.span) (hlexical : d.problem.isLexical = false) :
    c.Reaches { c' with reports := d :: c'.reports } := by
  obtain ⟨hready, taken, reports, htokens, hreports, herrors, hothers⟩ := h
  refine ⟨hready, taken, d :: reports, htokens, congrArg (d :: ·) hreports, ?_, ?_⟩
  · rw [List.reverse_cons, List.filter_append, herrors]
    simp [hlexical]
  · intro d' hd hlexical'
    rcases List.mem_cons.1 hd with rfl | hd
    · exact ⟨t, ht, hkind, hspan⟩
    · exact hothers d' hd hlexical'

end Cursor

/-! ### What is entered on the way -/

/-- Whether the reader must not enter a production without moving on: it must not enter a round of a loop, a type, a value
or a selection set, nor any other production that is not optional. -/
def Production.mustMove : Production → Bool
  | definition | directives | arguments => false
  | _ => true

/-- A step takes a token, or stands at the end of the file. -/
def Step.Moves (s : Step) : Prop :=
  (s.after <:+ s.before ∧ s.after.length < s.before.length) ∨ kindOf s.before = .endOfFile

/-- A cursor has moved on in some steps: those that must move do, and there are no more of them than sixteen for each token
on the way, and as many as `credit` besides. -/
structure Visits (c c' : Cursor) (steps : List Step) (credit : Int) : Prop where
  reaches : c.Reaches c'
  moves : ∀ s ∈ steps, s.production.mustMove = true → s.Moves
  count : (steps.length : Int) + 16 * c'.tokens.length ≤ 16 * c.tokens.length + credit

variable {c c' c'' : Cursor} {steps steps' : List Step} {k k' : Int}

theorem Visits.refl (c : Cursor) : Visits c c [] 0 := ⟨.refl c, nofun, by simp⟩

theorem Visits.trans (h : Visits c c' steps k) (h' : Visits c' c'' steps' k') : Visits c c'' (steps' ++ steps) (k + k') := by
  refine ⟨h.reaches.trans h'.reaches, ?_, ?_⟩
  · intro s hs
    rcases List.mem_append.1 hs with hs | hs
    · exact h'.moves s hs
    · exact h.moves s hs
  · have hcount := h.count
    have hcount' := h'.count
    rw [List.length_append]
    omega

theorem Visits.mono (h : Visits c c' steps k) (hk : k ≤ k') : Visits c c' steps k' :=
  ⟨h.reaches, h.moves, Int.le_trans h.count (Int.add_le_add_left hk _)⟩

theorem Visits.length_le (h : Visits c c' steps k) : c'.tokens.length ≤ c.tokens.length := h.reaches.suffix.length_le

theorem Visits.length_lt (h : Visits c c' steps k) (hk : k < 0) : c'.tokens.length < c.tokens.length := by
  have hcount := h.count
  omega

/-- No token is left after the end of the file. -/
theorem Cursor.tokens_eq_singleton (hready : Ready c.tokens) (hend : c.current.kind = .endOfFile) :
    c.tokens = [c.current] := by
  have hended := hready.ended
  unfold Cursor.tokens at hended ⊢
  generalize c.rest = rest at hended
  cases hended with
  | last => rfl
  | cons hne => exact absurd hend hne

/-- At the end of the file the cursor stays. -/
theorem Visits.at_end (h : Visits c c' steps k) (hready : Ready c.tokens) (hend : c.current.kind = .endOfFile) :
    c'.current.kind = .endOfFile := by
  obtain ⟨taken, htokens⟩ := h.reaches.suffix
  rw [Cursor.tokens_eq_singleton hready hend] at htokens
  cases taken with
  | nil => exact (congrArg Token.kind (List.cons.inj htokens).1).trans hend
  | cons t taken => exact absurd (List.cons.inj htokens).2 (by simp [Cursor.tokens])

/-- With no credit, a step that is entered takes a token. -/
theorem Visits.cons {production : Production} (h : Visits c c' steps (k - 1))
    (hmoves : production.mustMove = true → c.current.kind ≠ .endOfFile → k ≤ 0) :
    Visits c c' (⟨production, c.tokens, c'.tokens⟩ :: steps) k := by
  have hcount := h.count
  refine ⟨h.reaches, ?_, ?_⟩
  · intro s hs hmust
    rcases List.mem_cons.1 hs with rfl | hs
    · by_cases hend : c.current.kind = .endOfFile
      · exact .inr hend
      · have hk := hmoves hmust hend
        refine .inl ⟨h.reaches.suffix, ?_⟩
        show c'.tokens.length < c.tokens.length
        omega
    · exact h.moves s hs hmust
  · rw [List.length_cons]
    omega

/-! ### Single steps -/

namespace Parser

/-- What a parser that may report something that is no matter of a single token does to the cursor. -/
theorem visits_report {d : Diagnostic} (hready : Ready c.tokens) (hspan : d.span = c.current.span)
    (hlexical : d.problem.isLexical = false) : Visits c ((report d).run c).2 [] 0 where
  reaches := (Cursor.Reaches.refl c).report (List.mem_cons_self ..) hready.noError hspan hlexical
  moves := nofun
  count := by
    show (0 : Int) + 16 * c.tokens.length ≤ _
    omega

theorem visits_unexpected (hready : Ready c.tokens) : Visits c (unexpected.run c).2 [] 0 :=
  visits_report hready (d := ⟨.unexpectedToken, c.current.span, "Unexpected " ++ c.current.describe ++ "."⟩) rfl rfl

theorem visits_expected (what : String) (hready : Ready c.tokens) : Visits c ((expected what).run c).2 [] 0 := by
  let problem : Problem := if c.current.kind = .endOfFile then .unexpectedEnd else .unexpectedToken
  have hlexical : problem.isLexical = false := by
    show (if _ then _ else _ : Problem).isLexical = false
    split <;> rfl
  exact visits_report hready
    (d := ⟨problem, c.current.span, "Expected " ++ what ++ ", found " ++ c.current.describe ++ "."⟩) rfl hlexical

theorem visits_advance (hready : Ready c.tokens) (hne : c.current.kind ≠ .endOfFile) :
    Visits c (advance.run c).2 [] (-16) := by
  obtain ⟨hreaches, hlength⟩ := Cursor.reaches_advance hready hne
  refine ⟨hreaches, nofun, ?_⟩
  show (0 : Int) + 16 * (c.advanceTo c.rest).tokens.length ≤ _
  omega

theorem visits_expectKeyword (word : String) (hready : Ready c.tokens) :
    Visits c ((expectKeyword word).run c).2 [] 0 := by
  have hrun : (expectKeyword word).run c = (if decide (c.current.kind = .name ∧ c.current.text = word) then advance
      else expected ("\"" ++ word ++ "\"")).run c := rfl
  rw [hrun]
  split
  · rename_i hfound
    have hne : c.current.kind ≠ .endOfFile := by
      rw [(of_decide_eq_true hfound).1]
      nofun
    exact (visits_advance hready hne).mono (by omega)
  · exact visits_expected _ hready

theorem visits_intLiteral (hready : Ready c.tokens) : Visits c ((intLiteral c.current).run c).2 [] 0 := by
  unfold intLiteral
  dsimp only
  split
  · exact .refl c
  · exact visits_report hready (d := ⟨.intOutOfRange, c.current.span, _⟩) rfl rfl

theorem visits_stringLiteral (hready : Ready c.tokens) : Visits c ((stringLiteral c.current).run c).2 [] 0 := by
  unfold stringLiteral
  split
  · exact .refl c
  · exact visits_report hready (d := ⟨.invalidEscape, c.current.span, _⟩) rfl rfl

end Parser

/-! ### What is left at the end of the file -/

/-- At the end of the file a production may take some credit; elsewhere it leaves some. -/
def Cursor.cost (c : Cursor) (idle margin : Nat) : Int := if c.current.kind = .endOfFile then idle else -margin

theorem Cursor.cost_le {idle margin : Nat} : c.cost idle margin ≤ idle := by
  unfold cost
  split <;> omega

theorem Cursor.cost_congr {idle margin : Nat} (h : c'.tokens = c.tokens) : c'.cost idle margin = c.cost idle margin := by
  unfold cost
  rw [(List.cons.inj h).1]

theorem Cursor.cost_of_ne {idle margin : Nat} (hne : c.current.kind ≠ .endOfFile) : c.cost idle margin = -margin :=
  if_neg hne

namespace Parser

/-- What has no place is skipped, unless the file ends there. -/
theorem visits_advanceUnlessAtEnd (hready : Ready c.tokens) :
    Visits c (advanceUnlessAtEnd.run c).2 [] (c.cost 0 16) := by
  by_cases hend : c.current.kind = .endOfFile
  · have hrun : advanceUnlessAtEnd.run c = ((), c) := by
      show (if decide (c.current.kind = .endOfFile) then pure () else advance : Parser Unit).run c = _
      rw [if_pos (decide_eq_true hend)]
      rfl
    rw [hrun, Cursor.cost, if_pos hend]
    exact .refl c
  · have hrun : advanceUnlessAtEnd.run c = advance.run c := by
      show (if decide (c.current.kind = .endOfFile) then pure () else advance : Parser Unit).run c = _
      rw [if_neg (by simpa using hend)]
    rw [hrun, Cursor.cost_of_ne hend]
    exact visits_advance hready hend

/-- A name is at the token at which it is looked for. -/
theorem visits_name (hready : Ready c.tokens) :
    Visits c (name.run c).2 [] (c.cost 0 16) ∧ (name.run c).1.span = c.current.span := by
  by_cases hname : c.current.kind = .name
  · have hrun : name.run c = (⟨c.current.text, c.current.span⟩, (advance.run c).2) := by
      show (if c.current.kind = .name then _ else _ : Parser Name).run c = _
      rw [if_pos hname]
      rfl
    have hne : c.current.kind ≠ .endOfFile := by
      rw [hname]
      nofun
    rw [hrun, Cursor.cost_of_ne hne]
    exact ⟨visits_advance hready hne, rfl⟩
  · have hrun : name.run c = (⟨"", c.current.span⟩, (advanceUnlessAtEnd.run ((expected TokenKind.name.label).run c).2).2) := by
      show (if c.current.kind = .name then _ else _ : Parser Name).run c = _
      rw [if_neg hname]
      rfl
    have hreport := visits_expected TokenKind.name.label hready
    have hskip := visits_advanceUnlessAtEnd (hreport.reaches.ready hready)
    rw [hrun]
    exact ⟨(hreport.trans hskip).mono (by rw [Int.zero_add]; exact Int.le_refl _), rfl⟩

end Parser

end GraphQL
