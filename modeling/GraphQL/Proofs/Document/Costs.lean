import GraphQL.Proofs.Document.Visits

/-!
# Parsers that are tracked

`Runs q p c P` says that a tracked parser `q` does from a cursor on what the parser `p` does, without running out of fuel, and
that its result, the cursor after it and what was entered satisfy `P`.  `Costs q p c k` is the case in which what was entered
costs no more than the tokens on the way and `k` besides.  What a first parser has spent, the next one lacks (`Costs.bind`).
-/

namespace GraphQL

variable {c c' c'' : Cursor} {k k' : Int}

/-! ### Runs -/

namespace Track

variable {α β : Type} {q : Track α} {p : Parser α} {f : α → Track β} {g : α → Parser β}

/-- A tracked parser does what the parser does, without running out of fuel, and what it does satisfies `P`. -/
def Runs (q : Track α) (p : Parser α) (c : Cursor) (P : α → Cursor → List Step → Prop) : Prop :=
  ∃ steps, (∀ log, ((q.run log).run.run c : Id _) = (some ((p.run c).1, steps ++ log), (p.run c).2)) ∧
    P (p.run c).1 (p.run c).2 steps

theorem Runs.mono {P Q : α → Cursor → List Step → Prop} (h : Runs q p c P) (hPQ : ∀ {x c' s}, P x c' s → Q x c' s) :
    Runs q p c Q := by
  obtain ⟨steps, hrun, hP⟩ := h
  exact ⟨steps, hrun, hPQ hP⟩

theorem runs_pure {x : α} {P : α → Cursor → List Step → Prop} (h : P x c []) : Runs (pure x) (pure x) c P :=
  ⟨[], fun _ => rfl, h⟩

/-- What comes after a tracked parser that has an outcome. -/
theorem run_bind {c' : Cursor} {x : α} {log log' : List Step}
    (h : ((q.run log).run.run c : Id _) = (some (x, log'), c')) :
    (((q >>= f).run log).run.run c : Id _) = ((f x).run log').run.run c' := by
  simp only [StateT.run_bind, OptionT.run_bind, Option.elimM, StateT.run_bind]
  rw [h]
  rfl

theorem Runs.bind {Q : α → Cursor → List Step → Prop} {P : β → Cursor → List Step → Prop} (h : Runs q p c Q)
    (h' : ∀ x c' s, p.run c = (x, c') → Q x c' s → Runs (f x) (g x) c' fun y c'' s' => P y c'' (s' ++ s)) :
    Runs (q >>= f) (p >>= g) c P := by
  obtain ⟨steps, hrun, hQ⟩ := h
  obtain ⟨steps', hrun', hP⟩ := h' (p.run c).1 (p.run c).2 _ rfl hQ
  refine ⟨steps' ++ steps, fun log => ?_, hP⟩
  rw [run_bind (hrun log), hrun', List.append_assoc]
  rfl

theorem runs_lift {P : α → Cursor → List Step → Prop} (h : P (p.run c).1 (p.run c).2 []) : Runs (liftM p) p c P :=
  ⟨[], fun _ => rfl, h⟩

/-- Looking changes nothing. -/
theorem Runs.look {x : α} {P : β → Cursor → List Step → Prop} (hp : p.run c = (x, c)) (h : Runs (f x) (g x) c P) :
    Runs (liftM p >>= f) (p >>= g) c P := by
  refine Runs.bind (runs_lift (P := fun y c' s => y = x ∧ c' = c ∧ s = []) ?_) fun y c' s _ hQ => ?_
  · rw [hp]
    exact ⟨rfl, rfl, rfl⟩
  · obtain ⟨rfl, rfl, rfl⟩ := hQ
    refine Runs.mono h fun hP => ?_
    rwa [List.append_nil]

theorem Runs.within {production : Production} {P : α → Cursor → List Step → Prop}
    (h : Runs q p c fun x c' s => P x c' (⟨production, c.tokens, c'.tokens⟩ :: s)) :
    Runs (within production q) p c P := by
  obtain ⟨steps, hrun, hP⟩ := h
  refine ⟨⟨production, c.tokens, (p.run c).2.tokens⟩ :: steps, fun log => ?_, hP⟩
  have hleft : ∀ (d : Cursor) (log : List Step), (((liftM left : Track (List Token)).run log).run.run d : Id _) =
      (some (d.tokens, log), d) := fun _ _ => rfl
  unfold Track.within
  rw [run_bind (hleft c log), run_bind (hrun log), run_bind (hleft _ _)]
  rfl

/-! ### Costs -/

/-- A tracked parser does what the parser does, in no more steps than the tokens it takes and `k` besides allow for. -/
def Costs (q : Track α) (p : Parser α) (c : Cursor) (k : Int) : Prop := Runs q p c fun _ c' s => Visits c c' s k

theorem Costs.mono (h : Costs q p c k) (hk : k ≤ k') : Costs q p c k' := Runs.mono h fun hv => hv.mono hk

theorem costs_pure {x : α} (hk : 0 ≤ k) : Costs (pure x) (pure x) c k := runs_pure ((Visits.refl c).mono hk)

/-- What one parser has spent, the next one lacks. -/
theorem Costs.bind (h : Costs q p c k)
    (h' : ∀ x c' s, p.run c = (x, c') → Visits c c' s k → Costs (f x) (g x) c' (k' - k)) :
    Costs (q >>= f) (p >>= g) c k' := by
  refine Runs.bind h fun x c' s hrun hv => Runs.mono (h' x c' s hrun hv) fun hv' => ?_
  exact (hv.trans hv').mono (by omega)

theorem Costs.within {production : Production} (h : Costs q p c (k - 1))
    (hmoves : production.mustMove = true → c.current.kind ≠ .endOfFile → k ≤ 0) : Costs (within production q) p c k :=
  Runs.within (Runs.mono h fun hv => hv.cons hmoves)

/-- Looking costs nothing. -/
theorem Costs.look {x : α} (hp : p.run c = (x, c)) (h : Costs (f x) (g x) c k) : Costs (liftM p >>= f) (p >>= g) c k :=
  Runs.look hp h

theorem costs_ite {b : Prop} [Decidable b] {q' : Track α} {p' : Parser α} (h : b → Costs q p c k)
    (h' : ¬ b → Costs q' p' c k) : Costs (if b then q else q') (if b then p else p') c k := by
  split
  · exact h ‹b›
  · exact h' ‹¬ b›

/-! ### Single steps -/

open GraphQL.Parser (current offset location spanFrom advance report atKind atPunctuator atEnd atKeyword unexpected
  expected expectPunctuator expectKeyword advanceUnlessAtEnd intLiteral stringLiteral nameLiteral operationKind?)

variable {α β : Type} {q : Track α} {p : Parser α} {f : α → Track β} {g : α → Parser β}

theorem costs_lift (h : Visits c (p.run c).2 [] k) : Costs (liftM p) p c k := runs_lift h

/-- One parser after the other, with what is known of the cursor between them. -/
theorem Costs.andThen (hready : Ready c.tokens) (h : Costs q p c k)
    (h' : ∀ x c', Ready c'.tokens → c'.tokens.length ≤ c.tokens.length → (k < 0 → c'.tokens.length < c.tokens.length) →
      Costs (f x) (g x) c' (k' - k)) : Costs (q >>= f) (p >>= g) c k' :=
  h.bind fun x c' _ _ hv => h' x c' (hv.reaches.ready hready) hv.length_le hv.length_lt

/-- Something may be reported, and the cursor stays. -/
theorem Costs.stay (hready : Ready c.tokens) (hv : Visits c (p.run c).2 [] 0) (hstay : (p.run c).2.tokens = c.tokens)
    (h : ∀ x (c' : Cursor), Ready c'.tokens → c'.tokens = c.tokens → Costs (f x) (g x) c' k) :
    Costs (liftM p >>= f) (p >>= g) c k := by
  refine (costs_lift hv).bind fun x c' _ hrun hv' => ?_
  rw [hrun] at hstay
  exact (h x c' (hv'.reaches.ready hready) hstay).mono (by omega)

/-- A token is taken. -/
theorem Costs.advance {f : Unit → Track β} {g : Unit → Parser β} (hready : Ready c.tokens)
    (hne : c.current.kind ≠ .endOfFile)
    (h : ∀ c' : Cursor, Ready c'.tokens → c'.tokens.length < c.tokens.length → Costs (f ()) (g ()) c' (k + 16)) :
    Costs (liftM Parser.advance >>= f) (Parser.advance >>= g) c k :=
  (costs_lift (Parser.visits_advance hready hne)).andThen hready fun _ c' hready' _ hlt =>
    (h c' hready' (hlt (by omega))).mono (by omega)

/-- A punctuator is looked for: it is taken, or the cursor stays. -/
theorem Costs.expectCases {f : Unit → Track β} {g : Unit → Parser β} {punctuator : Punctuator} (hready : Ready c.tokens)
    (htaken : c.current.kind ≠ .endOfFile → ∀ c' : Cursor, Ready c'.tokens → c'.tokens.length < c.tokens.length →
      Costs (f ()) (g ()) c' (k + 16))
    (hstay : ∀ c' : Cursor, Ready c'.tokens → c'.tokens = c.tokens → Costs (f ()) (g ()) c' k) :
    Costs (liftM (expectPunctuator punctuator) >>= f) (expectPunctuator punctuator >>= g) c k := by
  have hrun : (expectPunctuator punctuator).run c = (if decide (c.current.kind = .punctuator punctuator) then Parser.advance
      else expected (TokenKind.punctuator punctuator).text).run c := rfl
  by_cases hkind : c.current.kind = .punctuator punctuator
  · rw [if_pos (decide_eq_true hkind)] at hrun
    have hne : c.current.kind ≠ .endOfFile := by
      rw [hkind]
      nofun
    have hv := Parser.visits_advance hready hne
    rw [← hrun] at hv
    refine (costs_lift hv).andThen hready fun _ c' hready' _ hlt => ?_
    exact (htaken hne c' hready' (hlt (by omega))).mono (by omega)
  · rw [if_neg (by simpa using hkind)] at hrun
    have hv := Parser.visits_expected (TokenKind.punctuator punctuator).text hready
    rw [← hrun] at hv
    exact Costs.stay hready hv (by rw [hrun]; rfl) fun _ c' hready' hstay' => hstay c' hready' hstay'

/-- A punctuator is looked for, and stepped over if it is there. -/
theorem Costs.expect {f : Unit → Track β} {g : Unit → Parser β} {punctuator : Punctuator} (hready : Ready c.tokens)
    (h : ∀ c' : Cursor, Ready c'.tokens → c'.tokens.length ≤ c.tokens.length → Costs (f ()) (g ()) c' k) :
    Costs (liftM (expectPunctuator punctuator) >>= f) (expectPunctuator punctuator >>= g) c k := by
  refine Costs.expectCases hready (fun _ c' hready' hlt => ?_) fun c' hready' hstay => ?_
  · exact (h c' hready' (Nat.le_of_lt hlt)).mono (by omega)
  · exact h c' hready' (Nat.le_of_eq (congrArg List.length hstay))

/-- Looking for a punctuator: where it is, the file does not end. -/
theorem costs_atPunctuator {f : Bool → Track β} {g : Bool → Parser β} {punctuator : Punctuator}
    (h : c.current.kind ≠ .endOfFile → Costs (f true) (g true) c k) (h' : Costs (f false) (g false) c k) :
    Costs (liftM (atPunctuator punctuator) >>= f) (atPunctuator punctuator >>= g) c k := by
  refine Costs.look (x := decide (c.current.kind = .punctuator punctuator)) rfl ?_
  by_cases hkind : c.current.kind = .punctuator punctuator
  · rw [decide_eq_true hkind]
    refine h ?_
    rw [hkind]
    nofun
  · rw [decide_eq_false hkind]
    exact h'

/-- Looking for a word. -/
theorem costs_atKeyword {f : Bool → Track β} {g : Bool → Parser β} {word : String}
    (h : c.current.kind ≠ .endOfFile → Costs (f true) (g true) c k) (h' : Costs (f false) (g false) c k) :
    Costs (liftM (atKeyword word) >>= f) (atKeyword word >>= g) c k := by
  refine Costs.look (x := decide (c.current.kind = .name ∧ c.current.text = word)) rfl ?_
  by_cases hword : c.current.kind = .name ∧ c.current.text = word
  · rw [decide_eq_true hword]
    refine h ?_
    rw [hword.1]
    nofun
  · rw [decide_eq_false hword]
    exact h'

/-- Looking for the end of the file. -/
theorem costs_atEnd {f : Bool → Track β} {g : Bool → Parser β}
    (h : c.current.kind = .endOfFile → Costs (f true) (g true) c k)
    (h' : c.current.kind ≠ .endOfFile → Costs (f false) (g false) c k) :
    Costs (liftM atEnd >>= f) (atEnd >>= g) c k := by
  refine Costs.look (x := decide (c.current.kind = .endOfFile)) rfl ?_
  by_cases hend : c.current.kind = .endOfFile
  · rw [decide_eq_true hend]
    exact h hend
  · rw [decide_eq_false hend]
    exact h' hend

/-- A production that must move is entered with credit only at the end of the file. -/
theorem Costs.enter {production : Production} {idle margin : Nat} (h : Costs q p c (c.cost idle margin - 1)) :
    Costs (Track.within production q) p c (c.cost idle margin) := by
  refine h.within fun _ hne => ?_
  rw [Cursor.cost_of_ne hne]
  omega

/-! ### Loops -/

section

variable {close : Punctuator} {loop : Loop} {body : Track α} {body' : Parser α} {rest : Track (List α)}
  {rest' : Parser (List α)}

/-- A loop that looks where it is before each round. -/
theorem costs_loop (hready : Ready c.tokens)
    (hbody : c.current.kind ≠ .endOfFile → Costs body body' c (-2))
    (hrest : ∀ c' : Cursor, Ready c'.tokens → c'.tokens.length < c.tokens.length → Costs rest rest' c' 0) :
    Costs
      (do if (← (atPunctuator close : Parser Bool)) || (← (atEnd : Parser Bool)) then return []
          else
            let x ← within (.round loop) body
            return x :: (← rest))
      (do if (← atPunctuator close) || (← atEnd) then return []
          else
            let x ← body'
            return x :: (← rest')) c 0 := by
  refine costs_atPunctuator (fun _ => ?_) ?_
  · exact Costs.look rfl (costs_pure (by omega))
  · refine costs_atEnd (fun _ => costs_pure (by omega)) fun hne => ?_
    have hround : Costs (within (.round loop) body) body' c (-1) := (hbody hne).within fun _ _ => by omega
    refine hround.andThen hready fun x c₁ hready₁ _ hlt => ?_
    exact (hrest c₁ hready₁ (hlt (by omega))).andThen hready₁ fun xs _ _ _ _ => costs_pure (by omega)

/-- A loop that looks where it is after each round. -/
theorem costs_loop₁ {idle margin : Nat} (hready : Ready c.tokens) (hbody : Costs body body' c (c.cost idle margin - 1))
    (hmargin : 0 < margin)
    (hrest : ∀ c' : Cursor, Ready c'.tokens → c'.tokens.length < c.tokens.length → c'.current.kind ≠ .endOfFile →
      Costs rest rest' c' 0) :
    Costs
      (do let x ← within (.round loop) body
          if (← (atPunctuator close : Parser Bool)) || (← (atEnd : Parser Bool)) then return [x]
          else return x :: (← rest))
      (do let x ← body'
          if (← atPunctuator close) || (← atEnd) then return [x]
          else return x :: (← rest')) c (c.cost idle margin) := by
  refine (Costs.enter hbody).bind fun x c' _ _ hv => ?_
  have hready' := hv.reaches.ready hready
  refine costs_atPunctuator (fun _ => ?_) ?_
  · exact Costs.look rfl (costs_pure (by omega))
  · refine costs_atEnd (fun _ => costs_pure (by omega)) fun hne' => ?_
    have hne : c.current.kind ≠ .endOfFile := fun hend => hne' (hv.at_end hready hend)
    rw [Cursor.cost_of_ne hne] at hv
    exact (hrest c' hready' (hv.length_lt (by omega)) hne').andThen hready' fun xs _ _ _ _ => costs_pure (by omega)

end

end Track

end GraphQL
