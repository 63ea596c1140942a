import GraphQL.Proofs.Document.Reading

/-!
# Reading lists

Lists are read in loops, which stop at a punctuator or at the end of the file.  If what a loop reads in a round is what a
relation says, all that it reads are any number of parts of which the relation says so (`Reads.many`, `Many.reads`);
a loop that looks where it is only after a round reads at least one part (`Reads.many₁`, `Many.reads₁`).

The rounds of a loop may take more steps the more tokens there are; `cost` bounds the steps of a round.
-/

namespace GraphQL

open Grammar GraphQL.Parser

/-! ### Valid tokens -/

theorem Token.valid_of_punctuator {t : Token} {p : Punctuator} (h : t.kind = .punctuator p) : t.Valid :=
  ⟨by simp [h], by simp [h], by simp [h]⟩

theorem Token.valid_of_name {t : Token} (h : t.kind = .name) : t.Valid :=
  ⟨by simp [h], by simp [h], by simp [h]⟩

/-- Valid tokens up to the end of the file, numbers with the texts of such. -/
structure Fine (ts : List Token) : Prop where
  ended : Ended ts
  formed : ∀ t ∈ ts, t.Formed
  valid : ∀ t ∈ ts, t.Valid

variable {lines : LineIndex} {ts ts₁ ts' : List Token}

namespace Fine

theorem ready (h : Fine ts) : Ready ts := by
  refine ⟨h.ended, h.formed, ?_⟩
  cases hts : ts with
  | nil => exact absurd hts h.ended.ne_nil
  | cons t rest => exact (h.valid t (hts ▸ List.mem_cons_self)).ne_error

theorem of_covers (h : Fine ts) (hts : Covers ts ts') : Fine ts' := by
  refine ⟨?_, fun t ht => h.formed t (hts.subset ht), fun t ht => h.valid t (hts.subset ht)⟩
  have hended := h.ended
  clear h
  induction hts with
  | refl => exact hended
  | step ht _ ih => exact ih (hended.tail ht.ne_end)

theorem of_takes (h : Fine ts) (hts : Takes ts ts') : Fine ts' := h.of_covers hts.covers

end Fine

theorem Ready.length_pos (h : Ready ts) : 0 < ts.length := List.length_pos_iff.2 h.ended.ne_nil

theorem Grammar.Sign.valid {p : Punctuator} (h : Sign p ts ts') : Across Token.Valid ts ts' := by
  cases h with
  | mk h => exact .step (Token.valid_of_punctuator h) .refl

theorem Grammar.Keyword.valid {word : String} (h : Keyword word ts ts') : Across Token.Valid ts ts' := by
  cases h with
  | mk h => exact .step (Token.valid_of_name h) .refl

theorem Name.Spelled.valid {name : Name} (h : Name.Spelled ts name ts') : Across Token.Valid ts ts' := by
  cases h with
  | mk h => exact .step (Token.valid_of_name h) .refl

/-! ### Loops -/

/-- A loop stops here. -/
def StopsAt (close : Punctuator) (ts : List Token) : Prop := kindOf ts = .punctuator close ∨ kindOf ts = .endOfFile

section

variable {α : Type} {loop : Nat → Parser (List α)} {body : Nat → Parser α} {close : Punctuator} {R : Spelling α}
  {cost : Nat → Nat} {bound : Nat}

/-- Rounds as long as the loop does not stop. -/
def IsLoop (close : Punctuator) (body : Nat → Parser α) (loop : Nat → Parser (List α)) : Prop :=
  ∀ fuel, loop (fuel + 1) = do
    if (← atPunctuator close) || (← atEnd) then return []
    else
      let x ← body fuel
      return x :: (← loop fuel)

/-- Rounds until the loop stops. -/
def IsLoop₁ (close : Punctuator) (body : Nat → Parser α) (loop : Nat → Parser (List α)) : Prop :=
  ∀ fuel, loop (fuel + 1) = do
    let x ← body fuel
    if (← atPunctuator close) || (← atEnd) then return [x]
    else return x :: (← loop fuel)

section

variable [∀ fuel, Grows (body fuel)] [∀ fuel, Grows (loop fuel)] (hcost : ∀ {m n}, m < n → cost m < cost n)
  (htakes : ∀ {ts x ts'}, R ts x ts' → Takes ts ts')
  (hbody : ∀ fuel < bound, ∀ {ts x ts'}, Reads lines (body fuel) ts x ts' → cost ts.length ≤ fuel →
    R ts x ts' ∧ Across Token.Valid ts ts')

include hcost htakes hbody

/-- A loop reads any number of parts. -/
theorem Reads.many (hloop : IsLoop close body loop) {fuel : Nat} {xs : List α} (h : Reads lines (loop fuel) ts xs ts')
    (hbound : fuel ≤ bound) (hfuel : cost ts.length < fuel) : Many R ts xs ts' ∧ Across Token.Valid ts ts' := by
  induction fuel generalizing ts xs with
  | zero => omega
  | succ fuel ih =>
    rw [hloop] at h
    simp only [reads_atPunctuator_bind, reads_atEnd_bind, reads_ite, reads_pure] at h
    obtain ⟨-, -, rfl, rfl⟩ | ⟨-, h⟩ := h
    · exact ⟨.nil, .refl⟩
    · obtain ⟨x, ts₁, hx, h⟩ := h.of_bind
      obtain ⟨rest, ts₂, hrest, h⟩ := h.of_bind
      obtain ⟨-, rfl, rfl⟩ := reads_pure.1 h
      obtain ⟨hx, hvalid⟩ := hbody fuel (by omega) hx (by omega)
      have hlt := hcost (htakes hx).length_lt
      obtain ⟨hrest, hvalid'⟩ := ih hrest (by omega) (by omega)
      exact ⟨.cons hx hrest, hvalid.trans hvalid'⟩

/-- A loop that looks after each round reads at least one part. -/
theorem Reads.many₁ (hloop : IsLoop₁ close body loop) {fuel : Nat} {xs : List α} (h : Reads lines (loop fuel) ts xs ts')
    (hbound : fuel ≤ bound) (hfuel : cost ts.length < fuel) :
    xs ≠ [] ∧ Many R ts xs ts' ∧ Across Token.Valid ts ts' := by
  induction fuel generalizing ts xs with
  | zero => omega
  | succ fuel ih =>
    rw [hloop] at h
    obtain ⟨x, ts₁, hx, h⟩ := h.of_bind
    obtain ⟨hx, hvalid⟩ := hbody fuel (by omega) hx (by omega)
    simp only [reads_atPunctuator_bind, reads_atEnd_bind, reads_ite, reads_pure] at h
    obtain ⟨-, -, rfl, rfl⟩ | ⟨-, h⟩ := h
    · exact ⟨by simp, .cons hx .nil, hvalid⟩
    · obtain ⟨rest, ts₂, hrest, h⟩ := h.of_bind
      obtain ⟨-, rfl, rfl⟩ := reads_pure.1 h
      have hlt := hcost (htakes hx).length_lt
      obtain ⟨-, hrest, hvalid'⟩ := ih hrest (by omega) (by omega)
      exact ⟨by simp, .cons hx hrest, hvalid.trans hvalid'⟩

end

section

variable (Next : List Token → Prop) (hcost : ∀ {m n}, m < n → cost m < cost n) (htakes : ∀ {ts x ts'}, R ts x ts' → Takes ts ts')
  (hnext : ∀ {ts x ts'}, R ts x ts' → ¬ StopsAt close ts ∧ Next ts) (hstop : ∀ {ts}, StopsAt close ts → Next ts)
  (hbody : ∀ fuel < bound, ∀ {ts x ts'}, R ts x ts' → Fine ts → Next ts' → cost ts.length ≤ fuel →
    Reads lines (body fuel) ts x ts')

include hcost htakes hnext hstop hbody

/-- Any number of parts is read by a loop that stops after them. -/
theorem Grammar.Many.reads (hloop : IsLoop close body loop) {fuel : Nat} {xs : List α} (h : Many R ts xs ts')
    (hfine : Fine ts) (hclose : StopsAt close ts') (hbound : fuel ≤ bound) (hfuel : cost ts.length < fuel) :
    Reads lines (loop fuel) ts xs ts' := by
  induction h generalizing fuel with
  | nil =>
    obtain ⟨fuel, rfl⟩ := Nat.exists_eq_succ_of_ne_zero (by omega : fuel ≠ 0)
    rw [hloop]
    simp only [reads_atPunctuator_bind, reads_atEnd_bind, reads_ite, reads_pure, Bool.or_eq_true, decide_eq_true_eq]
    exact .inl ⟨hclose, hfine.ready, trivial, trivial⟩
  | @cons ts x ts₁ xs ts' head tail ih =>
    obtain ⟨fuel, rfl⟩ := Nat.exists_eq_succ_of_ne_zero (by omega : fuel ≠ 0)
    have hlt := hcost (htakes head).length_lt
    have hrest := ih (hfine.of_takes (htakes head)) hclose (by omega : fuel ≤ bound) (by omega)
    -- the part ends before the next one, or where the loop stops
    have hafter : Next ts₁ := by
      cases tail with
      | nil => exact hstop hclose
      | cons head' _ => exact (hnext head').2
    rw [hloop]
    simp only [reads_atPunctuator_bind, reads_atEnd_bind, reads_ite, reads_pure, Bool.or_eq_true, decide_eq_true_eq]
    exact .inr ⟨(hnext head).1, (hbody fuel (by omega) head hfine hafter (by omega)).bind
      (hrest.bind (reads_pure.2 ⟨hrest.ready_rest, rfl, rfl⟩))⟩

/-- At least one part is read by a loop that stops after them, if the loop looks after each round. -/
theorem Grammar.Many.reads₁ (hloop : IsLoop₁ close body loop) {fuel : Nat} {xs : List α} (h : Many R ts xs ts')
    (hne : xs ≠ []) (hfine : Fine ts) (hclose : StopsAt close ts') (hbound : fuel ≤ bound)
    (hfuel : cost ts.length < fuel) : Reads lines (loop fuel) ts xs ts' := by
  induction h generalizing fuel with
  | nil => exact absurd rfl hne
  | @cons ts x ts₁ xs ts' head tail ih =>
    obtain ⟨fuel, rfl⟩ := Nat.exists_eq_succ_of_ne_zero (by omega : fuel ≠ 0)
    have hlt := hcost (htakes head).length_lt
    have hfine' := hfine.of_takes (htakes head)
    rw [hloop]
    cases tail with
    | nil =>
      refine (hbody fuel (by omega) head hfine (hstop hclose) (by omega)).bind ?_
      simp only [reads_atPunctuator_bind, reads_atEnd_bind, reads_ite, reads_pure, Bool.or_eq_true, decide_eq_true_eq]
      exact .inl ⟨hclose, hfine'.ready, trivial, trivial⟩
    | cons head' tail' =>
      refine (hbody fuel (by omega) head hfine (hnext head').2 (by omega)).bind ?_
      have hrest := ih (by simp) hfine' hclose (by omega : fuel ≤ bound) (by omega)
      simp only [reads_atPunctuator_bind, reads_atEnd_bind, reads_ite, reads_pure, Bool.or_eq_true, decide_eq_true_eq]
      exact .inr ⟨(hnext head').1, hrest.bind (reads_pure.2 ⟨hrest.ready_rest, rfl, rfl⟩)⟩

end

end

end GraphQL
