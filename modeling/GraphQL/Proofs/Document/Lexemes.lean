import GraphQL.Document.Lexer
import Mathlib.Data.List.TakeDrop
import Mathlib.Data.List.TakeWhile

/-!
# Lexical rules

`Lexeme kind text rest` says that a text before the rest of a source is a token of a kind, by the rule of that kind alone: a
name goes on as long as it can, a number must not run into a digit, a name or a point, a string ends with the first quote
that is not escaped.

A scan takes a lexeme if there is one, and all of it (`Lexeme.scan_eq`); otherwise what it takes is an error.  The one scan
that goes beyond the source is that of a string whose last character is a backslash that escapes nothing (`Severed`).
-/

namespace GraphQL

namespace Lexer

/-! ### Rules -/

/-- The next character, if there is one, is none of these. -/
def NotNext (p : Char → Bool) (rest : List Char) : Prop := ∀ c ∈ rest.head?, p c = false

/-- Digits, at least one. -/
structure IsDigits (text : List Char) : Prop where
  ne_nil : text ≠ []
  digits : ∀ c ∈ text, c.isDigit = true

/-- A zero, or digits without a zero in front. -/
inductive IsNatural : List Char → Prop
  | zero : IsNatural ['0']
  | digits {ds} (h : IsDigits ds) (hzero : ds.head? ≠ some '0') : IsNatural ds

/-- An integer: its digits, with or without a minus. -/
inductive IsInteger : List Char → Prop
  | positive {ds} (h : IsNatural ds) : IsInteger ds
  | negative {ds} (h : IsNatural ds) : IsInteger ('-' :: ds)

/-- The fraction of a number, if there is one. -/
inductive IsFraction : List Char → Prop
  | none : IsFraction []
  | some {ds} (h : IsDigits ds) : IsFraction ('.' :: ds)

/-- The sign of an exponent, if there is one. -/
inductive IsSign : List Char → Prop
  | none : IsSign []
  | plus : IsSign ['+']
  | minus : IsSign ['-']

/-- The exponent of a number, if there is one. -/
inductive IsExponent : List Char → Prop
  | none : IsExponent []
  | some {e sign ds} (he : e = 'e' ∨ e = 'E') (hsign : IsSign sign) (h : IsDigits ds) : IsExponent (e :: (sign ++ ds))

/-- Characters that a number must not run into. -/
def runsOn (c : Char) : Bool := c.isDigit || c = '.' || isNameStart c

/-- What stands between the quotes of a string: no quote, backslash or line end, unless a backslash is before it. -/
inductive IsQuoted : List Char → Prop
  | nil : IsQuoted []
  | plain {c cs} (hquote : c ≠ '"') (hescape : c ≠ '\\') (hline : c ≠ '\n' ∧ c ≠ '\r') (h : IsQuoted cs) : IsQuoted (c :: cs)
  | escape {c cs} (h : IsQuoted cs) : IsQuoted ('\\' :: c :: cs)

/-- Three quotes. -/
def tripleQuote : List Char := ['"', '"', '"']

/-- What a block string goes on with after its opening quotes: three quotes end it unless a backslash is before them. -/
inductive IsBlock : List Char → Prop
  | close : IsBlock tripleQuote
  | escape {cs} (h : IsBlock cs) : IsBlock ('\\' :: (tripleQuote ++ cs))
  | plain {c cs} (hclose : ¬ tripleQuote <+: c :: cs) (hescape : ¬ '\\' :: tripleQuote <+: c :: cs) (h : IsBlock cs) :
      IsBlock (c :: cs)

/-- A text is a token of a kind, before the rest of the source. -/
inductive Lexeme : TokenKind → List Char → List Char → Prop
  | punctuator {p rest} : Lexeme (.punctuator p) p.text.toList rest
  | name {c cs rest} (hc : isNameStart c = true) (hcs : ∀ d ∈ cs, isNameContinue d = true)
      (hend : NotNext isNameContinue rest) : Lexeme .name (c :: cs) rest
  | int {ds rest} (h : IsInteger ds) (hend : NotNext runsOn rest) : Lexeme .int ds rest
  | float {ds fraction exponent rest} (h : IsInteger ds) (hfraction : IsFraction fraction)
      (hexponent : IsExponent exponent) (hne : fraction ++ exponent ≠ []) (hend : NotNext runsOn rest) :
      Lexeme .float (ds ++ fraction ++ exponent) rest
  | string {body rest} (h : IsQuoted body) (hend : body = [] → rest.head? ≠ some '"') :
      Lexeme .string ('"' :: body ++ ['"']) rest
  | blockString {tail rest} (h : IsBlock tail) : Lexeme .blockString (tripleQuote ++ tail) rest

/-- A string that is cut off right after a backslash. -/
def Severed (cs : List Char) : Prop := ∃ body, IsQuoted body ∧ cs = '"' :: body ++ ['\\']

/-! ### Characters up to one of another class -/

theorem notNext_nil {p : Char → Bool} : NotNext p [] := by
  simp [NotNext]

theorem notNext_cons {p : Char → Bool} {c : Char} {cs : List Char} : NotNext p (c :: cs) ↔ p c = false := by
  simp [NotNext]

theorem NotNext.mono {p q : Char → Bool} {rest : List Char} (h : NotNext p rest) (hpq : ∀ c, q c = true → p c = true) :
    NotNext q rest := by
  intro c hc
  have hp := h c hc
  cases hq : q c with
  | false => rfl
  | true => exact absurd (hpq c hq) (by simp [hp])

/-- The longest part of characters of a class. -/
theorem span_eq_iff {p : Char → Bool} {l ds rest : List Char} :
    l.span p = (ds, rest) ↔ l = ds ++ rest ∧ (∀ c ∈ ds, p c = true) ∧ NotNext p rest := by
  rw [List.span_eq_takeWhile_dropWhile]
  constructor
  · intro h
    obtain ⟨rfl, rfl⟩ := Prod.mk.inj h
    refine ⟨List.takeWhile_append_dropWhile.symm, fun c hc => List.mem_takeWhile_imp hc, ?_⟩
    intro c hc
    have hnot := List.head?_dropWhile_not p l
    rw [Option.mem_def.1 hc] at hnot
    exact hnot
  · rintro ⟨rfl, hds, hrest⟩
    rw [List.takeWhile_append_of_pos hds, List.dropWhile_append_of_pos hds]
    cases rest with
    | nil => simp
    | cons c cs => simp [notNext_cons.1 hrest]

/-! ### Numbers -/

/-- The kind of a number with or without a fraction or an exponent. -/
def numberKind (isFloat : Bool) : TokenKind := if isFloat then .float else .int

/-- A scan goes on with a number after the characters taken so far: it takes a part more, and if it comes to no error then
the number ends there. -/
structure GoesOn (isPart : List Char → Prop) (isFloat : Bool) (taken input part : List Char) (s : Scanned) : Prop where
  taken : s.taken = taken ++ part
  rest : input = part ++ s.rest
  overrun : s.overrun = false
  ends : s.kind ≠ .error → isPart part ∧ NotNext runsOn s.rest ∧ s.kind = numberKind (isFloat || !part.isEmpty)

variable {isFloat : Bool} {taken input rest : List Char}

theorem finishNumber_eq (isFloat : Bool) (taken : List Char) (hend : NotNext runsOn rest) :
    finishNumber isFloat taken rest = ⟨numberKind isFloat, taken, rest, false⟩ := by
  unfold finishNumber
  cases rest with
  | nil => rfl
  | cons c cs =>
    have hc := notNext_cons.1 hend
    simp only [runsOn, Bool.or_eq_false_iff] at hc
    simp [hc.1.2, hc.2, numberKind]

theorem notNext_of_finishNumber (hdigit : NotNext Char.isDigit rest)
    (h : (finishNumber isFloat taken rest).kind ≠ .error) : NotNext runsOn rest := by
  unfold finishNumber at h
  cases rest with
  | nil => exact notNext_nil
  | cons c cs =>
    have hc := notNext_cons.1 hdigit
    rw [notNext_cons]
    by_contra hruns
    simp only [runsOn, hc, Bool.false_or, Bool.not_eq_false] at hruns
    exact h (by simp [hruns])

theorem finishNumber_goesOn (isFloat : Bool) (taken : List Char) (hdigit : NotNext Char.isDigit rest) :
    GoesOn (· = []) isFloat taken rest [] (finishNumber isFloat taken rest) where
  taken := (List.append_nil _).symm
  rest := rfl
  overrun := rfl
  ends h := by
    have hend := notNext_of_finishNumber hdigit h
    rw [finishNumber_eq _ _ hend]
    exact ⟨rfl, hend, by simp⟩

/-- Digits up to a character that is none. -/
theorem IsDigits.span_eq {ds : List Char} (h : IsDigits ds) (hdigit : NotNext Char.isDigit rest) :
    (ds ++ rest).span Char.isDigit = (ds, rest) :=
  span_eq_iff.2 ⟨rfl, h.digits, hdigit⟩

theorem NotNext.isDigit (h : NotNext runsOn rest) : NotNext Char.isDigit rest :=
  h.mono fun c hc => by simp [runsOn, hc]

/-- After the sign of an exponent there are digits, or there is an error. -/
private theorem exponentDigits_goesOn {e : Char} (he : e = 'e' ∨ e = 'E') {sign : List Char} (hsign : IsSign sign)
    (r : List Char) :
    ∃ part, GoesOn IsExponent isFloat taken (e :: (sign ++ r)) part
      (match r.span Char.isDigit with
      | (digits, r) =>
        if digits.isEmpty then ⟨.error, taken ++ e :: sign, r, false⟩
        else finishNumber true (taken ++ e :: sign ++ digits) r) := by
  obtain ⟨digits, r', hspan⟩ : ∃ digits r', r.span Char.isDigit = (digits, r') := ⟨_, _, rfl⟩
  obtain ⟨rfl, hdigits, hnext⟩ := span_eq_iff.1 hspan
  rw [hspan]
  dsimp only
  split
  · rename_i hnone
    obtain rfl := List.isEmpty_iff.1 hnone
    exact ⟨e :: sign, rfl, rfl, rfl, fun h => absurd rfl h⟩
  · rename_i hsome
    have hgoes := finishNumber_goesOn true (taken ++ e :: sign ++ digits) hnext
    refine ⟨e :: (sign ++ digits), ?_, ?_, hgoes.overrun, fun h => ?_⟩
    · show taken ++ e :: sign ++ digits = taken ++ e :: (sign ++ digits)
      simp
    · show e :: (sign ++ (digits ++ r')) = e :: (sign ++ digits) ++ r'
      simp
    · obtain ⟨-, hend, hkind⟩ := hgoes.ends h
      exact ⟨.some he hsign ⟨by simpa using hsome, hdigits⟩, hend, by simpa using hkind⟩

theorem scanExponent_goesOn (isFloat : Bool) (taken : List Char) (hdigit : NotNext Char.isDigit input) :
    ∃ part, GoesOn IsExponent isFloat taken input part (scanExponent isFloat taken input) := by
  have hfinish : ∀ {r : List Char}, NotNext Char.isDigit r →
      ∃ part, GoesOn IsExponent isFloat taken r part (finishNumber isFloat taken r) := by
    intro r hr
    have hgoes := finishNumber_goesOn isFloat taken hr
    refine ⟨[], hgoes.taken, hgoes.rest, hgoes.overrun, fun h => ?_⟩
    exact ⟨.none, (hgoes.ends h).2⟩
  unfold scanExponent
  split
  · exact hfinish notNext_nil
  · split
    · rename_i c r he
      dsimp only
      split
      · exact exponentDigits_goesOn he .plus _
      · exact exponentDigits_goesOn he .minus _
      · exact exponentDigits_goesOn he .none _
    · exact hfinish hdigit

/-- Neither an exponent nor a fraction is the start of the digits before it. -/
theorem notNext_append {part : List Char} (hpart : ∀ c ∈ part.head?, c.isDigit = false) (hend : NotNext Char.isDigit rest) :
    NotNext Char.isDigit (part ++ rest) := by
  cases part with
  | nil => exact hend
  | cons c cs => exact notNext_cons.2 (hpart c rfl)

theorem IsExponent.head? {exponent : List Char} (h : IsExponent exponent) : ∀ c ∈ exponent.head?, c.isDigit = false := by
  intro c hc
  cases h with
  | none => cases hc
  | some he =>
    obtain rfl := Option.some.inj hc
    rcases he with rfl | rfl <;> rfl

/-- A scan takes all of an exponent. -/
theorem scanExponent_eq {exponent : List Char} (isFloat : Bool) (taken : List Char) (h : IsExponent exponent)
    (hend : NotNext runsOn rest) :
    scanExponent isFloat taken (exponent ++ rest) =
      ⟨numberKind (isFloat || !exponent.isEmpty), taken ++ exponent, rest, false⟩ := by
  cases h with
  | none =>
    have hfinish := finishNumber_eq isFloat taken hend
    unfold scanExponent
    cases rest with
    | nil => simpa using hfinish
    | cons c cs =>
      have hletter : ¬ (c = 'e' ∨ c = 'E') := by
        have hc := notNext_cons.1 hend
        rintro (rfl | rfl) <;> exact absurd hc (by decide)
      simpa [hletter] using hfinish
  | @some e sign ds he hsign hds =>
    obtain ⟨d, ds, rfl⟩ := List.exists_cons_of_ne_nil hds.ne_nil
    have hspan := hds.span_eq hend.isDigit
    have hd : d ≠ '+' ∧ d ≠ '-' := by
      have hdigit := hds.digits d (by simp)
      constructor <;> (rintro rfl; exact absurd hdigit (by decide))
    have hfinish := finishNumber_eq true (taken ++ e :: (sign ++ d :: ds)) hend
    unfold scanExponent
    simp only [List.cons_append, List.append_assoc] at hspan ⊢
    rw [if_pos he]
    cases hsign with
    | none =>
      simp only [List.nil_append]
      split
      · rename_i heq; exact absurd (List.cons.inj heq).1 hd.1
      · rename_i heq; exact absurd (List.cons.inj heq).1 hd.2
      · dsimp only
        rw [hspan]
        simpa using hfinish
    | plus =>
      simp only [List.cons_append, List.nil_append]
      rw [hspan]
      simpa using hfinish
    | minus =>
      simp only [List.cons_append, List.nil_append]
      rw [hspan]
      simpa using hfinish

/-- The fraction of a number and then its exponent. -/
def IsTail (part : List Char) : Prop := ∃ fraction exponent, part = fraction ++ exponent ∧ IsFraction fraction ∧ IsExponent exponent

theorem scanFraction_goesOn (taken : List Char) (hdigit : NotNext Char.isDigit input) :
    ∃ part, GoesOn IsTail false taken input part (scanFraction taken input) := by
  unfold scanFraction
  split
  · rename_i r
    dsimp only
    obtain ⟨digits, r', hspan⟩ : ∃ digits r', r.span Char.isDigit = (digits, r') := ⟨_, _, rfl⟩
    obtain ⟨rfl, hdigits, hnext⟩ := span_eq_iff.1 hspan
    rw [hspan]
    dsimp only
    split
    · rename_i hnone
      obtain rfl := List.isEmpty_iff.1 hnone
      exact ⟨['.'], rfl, rfl, rfl, fun h => absurd rfl h⟩
    · rename_i hsome
      obtain ⟨exponent, hgoes⟩ := scanExponent_goesOn true (taken ++ '.' :: digits) hnext
      refine ⟨'.' :: (digits ++ exponent), ?_, ?_, hgoes.overrun, fun h => ?_⟩
      · rw [hgoes.taken]
        simp
      · rw [List.cons_append, List.append_assoc, ← hgoes.rest]
      · obtain ⟨hexponent, hend, hkind⟩ := hgoes.ends h
        refine ⟨⟨'.' :: digits, exponent, rfl, .some ⟨by simpa using hsome, hdigits⟩, hexponent⟩, hend, ?_⟩
        simpa using hkind
  · obtain ⟨exponent, hgoes⟩ := scanExponent_goesOn false taken hdigit
    refine ⟨exponent, hgoes.taken, hgoes.rest, hgoes.overrun, fun h => ?_⟩
    obtain ⟨hexponent, hend, hkind⟩ := hgoes.ends h
    exact ⟨⟨[], exponent, rfl, .none, hexponent⟩, hend, hkind⟩

/-- A scan takes all of a fraction and an exponent. -/
theorem scanFraction_eq {part : List Char} (h : IsTail part) (hend : NotNext runsOn rest) :
    scanFraction taken (part ++ rest) = ⟨numberKind (!part.isEmpty), taken ++ part, rest, false⟩ := by
  obtain ⟨fraction, exponent, rfl, hfraction, hexponent⟩ := h
  have hnext : NotNext Char.isDigit (exponent ++ rest) := notNext_append hexponent.head? hend.isDigit
  cases hfraction with
  | none =>
    have hexp := scanExponent_eq false taken hexponent hend
    unfold scanFraction
    rw [List.nil_append]
    split
    · rename_i r heq
      cases hexponent with
      | none =>
        rw [List.nil_append] at heq
        subst heq
        exact absurd (notNext_cons.1 hend) (by decide)
      | some he =>
        obtain ⟨rfl, -⟩ := List.cons.inj heq
        exact absurd he (by decide)
    · exact hexp
  | @some ds hds =>
    have hspan := hds.span_eq hnext
    have hexp := scanExponent_eq true (taken ++ '.' :: ds) hexponent hend
    unfold scanFraction
    simp only [List.cons_append, List.append_assoc]
    rw [hspan]
    have hsome : ds.isEmpty = false := by simpa using hds.ne_nil
    simpa [hsome] using hexp

/-! ### Scans -/

/-- A scan takes something from the front of what it is given, which is a token by the rule of its kind unless it is an
error.  Beyond what it is given it goes only if that is a string cut off after a backslash. -/
structure Sound (input : List Char) (s : Scanned) : Prop where
  parts : input = s.taken ++ s.rest
  ne_nil : s.taken ≠ []
  lexeme : s.kind ≠ .error → Lexeme s.kind s.taken s.rest
  overrun : s.overrun = true → s.kind = .error ∧ s.rest = [] ∧ Severed s.taken

theorem IsTail.head? {part : List Char} (h : IsTail part) : ∀ c ∈ part.head?, c.isDigit = false := by
  obtain ⟨fraction, exponent, rfl, hfraction, hexponent⟩ := h
  cases hfraction with
  | none => exact hexponent.head?
  | some =>
    intro c hc
    obtain rfl := Option.some.inj hc
    rfl

/-- An integer with its tail is a number, before what no number runs into. -/
theorem lexeme_number {ds part : List Char} (h : IsInteger ds) (hpart : IsTail part) (hend : NotNext runsOn rest) :
    Lexeme (numberKind (!part.isEmpty)) (ds ++ part) rest := by
  cases hempty : part.isEmpty with
  | true =>
    obtain rfl := List.isEmpty_iff.1 hempty
    rw [List.append_nil]
    exact .int h hend
  | false =>
    obtain ⟨fraction, exponent, rfl, hfraction, hexponent⟩ := hpart
    rw [← List.append_assoc]
    exact .float h hfraction hexponent (by simpa using hempty) hend

theorem IsInteger.ne_nil {ds : List Char} (h : IsInteger ds) : ds ≠ [] := by
  cases h with
  | positive h =>
    cases h with
    | zero => simp
    | digits h => exact h.ne_nil
  | negative => simp

/-- A scan goes on after the digits in front of a number. -/
private theorem scanFraction_sound {ds : List Char} (h : IsInteger ds) (hdigit : NotNext Char.isDigit rest) :
    Sound (ds ++ rest) (scanFraction ds rest) := by
  obtain ⟨part, hgoes⟩ := scanFraction_goesOn ds hdigit
  constructor
  · rw [hgoes.taken, List.append_assoc, ← hgoes.rest]
  · rw [hgoes.taken]
    simp [h.ne_nil]
  · intro hkind
    obtain ⟨hpart, hend, hnumber⟩ := hgoes.ends hkind
    rw [hnumber, hgoes.taken, Bool.false_or]
    exact lexeme_number h hpart hend
  · intro hoverrun
    rw [hgoes.overrun] at hoverrun
    cases hoverrun

/-- An error that stays within the source. -/
private theorem sound_error (taken rest : List Char) (h : taken ≠ []) : Sound (taken ++ rest) ⟨.error, taken, rest, false⟩ where
  parts := rfl
  ne_nil := h
  lexeme h := absurd rfl h
  overrun h := nomatch h

theorem digitFollows_eq_false_iff : digitFollows rest = false ↔ NotNext Char.isDigit rest := by
  cases rest with
  | nil => simp [digitFollows, notNext_nil]
  | cons c cs => simp [digitFollows, notNext_cons]

/-- A minus or none, in front of the digits of a number. -/
private theorem isInteger_append {sign ds : List Char} (hsign : sign = [] ∨ sign = ['-']) (h : IsNatural ds) :
    IsInteger (sign ++ ds) := by
  rcases hsign with rfl | rfl
  · exact .positive h
  · exact .negative h

/-- Scans a number after its sign. -/
def scanUnsigned (sign rest : List Char) : Scanned :=
  match rest with
  | '0' :: r => if digitFollows r then ⟨.error, sign ++ ['0'], r, false⟩ else scanFraction (sign ++ ['0']) r
  | r =>
    let (digits, r) := r.span Char.isDigit
    if digits.isEmpty then ⟨.error, sign, r, false⟩ else scanFraction (sign ++ digits) r

theorem scanNumber_minus (rest : List Char) : scanNumber ('-' :: rest) = scanUnsigned ['-'] rest := rfl

theorem scanNumber_of_head?_ne {cs : List Char} (h : cs.head? ≠ some '-') : scanNumber cs = scanUnsigned [] cs := by
  unfold scanNumber
  split
  rename_i sign r heq
  split at heq
  · exact absurd rfl h
  · obtain ⟨rfl, rfl⟩ := Prod.mk.inj heq
    rfl

theorem scanUnsigned_sound {sign r : List Char} (hsign : sign = [] ∧ digitFollows r = true ∨ sign = ['-']) :
    Sound (sign ++ r) (scanUnsigned sign r) := by
  have hfront : sign = [] ∨ sign = ['-'] := hsign.imp_left And.left
  unfold scanUnsigned
  split
  · rename_i r
    have hzero : sign ++ '0' :: r = sign ++ ['0'] ++ r := by simp
    rw [hzero]
    split
    · exact sound_error _ _ (by simp)
    · rename_i hdigit
      exact scanFraction_sound (isInteger_append hfront .zero) (digitFollows_eq_false_iff.1 (by simpa using hdigit))
  · rename_i hzero
    obtain ⟨digits, r', hspan⟩ : ∃ digits r', r.span Char.isDigit = (digits, r') := ⟨_, _, rfl⟩
    obtain ⟨rfl, hdigits, hnext⟩ := span_eq_iff.1 hspan
    rw [hspan]
    dsimp only
    split
    · rename_i hnone
      obtain rfl := List.isEmpty_iff.1 hnone
      rcases hsign with ⟨-, hdigit⟩ | rfl
      · rw [List.nil_append, digitFollows_eq_false_iff.2 hnext] at hdigit
        cases hdigit
      · exact sound_error _ _ (by simp)
    · rename_i hsome
      have hnatural : IsNatural digits := by
        refine .digits ⟨by simpa using hsome, hdigits⟩ fun hhead => ?_
        obtain ⟨cs, rfl⟩ := List.head?_eq_some_iff.1 hhead
        exact hzero _ rfl
      rw [← List.append_assoc]
      exact scanFraction_sound (isInteger_append hfront hnatural) hnext

theorem scanNumber_sound {c : Char} (hc : c = '-' ∨ c.isDigit = true) (rest : List Char) :
    Sound (c :: rest) (scanNumber (c :: rest)) := by
  by_cases hminus : c = '-'
  · subst hminus
    exact scanUnsigned_sound (.inr rfl)
  · rw [scanNumber_of_head?_ne (by simpa using hminus)]
    have hunsigned := scanUnsigned_sound (r := c :: rest) (.inl ⟨rfl, hc.resolve_left hminus⟩)
    exact hunsigned

/-- A scan takes all of the digits in front of a number. -/
private theorem scanUnsigned_eq {sign ds : List Char} (h : IsNatural ds) (hdigit : NotNext Char.isDigit rest) :
    scanUnsigned sign (ds ++ rest) = scanFraction (sign ++ ds) rest := by
  unfold scanUnsigned
  cases h with
  | zero => simp [digitFollows_eq_false_iff.2 hdigit]
  | digits hds hzero =>
    have hspan := hds.span_eq hdigit
    have hsome : ds.isEmpty = false := by simpa using hds.ne_nil
    obtain ⟨d, ds, rfl⟩ := List.exists_cons_of_ne_nil hds.ne_nil
    split
    · rename_i heq
      exact absurd (congrArg some (List.cons.inj heq).1) hzero
    · rw [hspan]
      rfl

/-- A scan takes all of a number. -/
theorem scanNumber_eq {ds part : List Char} (h : IsInteger ds) (hpart : IsTail part) (hend : NotNext runsOn rest) :
    scanNumber (ds ++ part ++ rest) = ⟨numberKind (!part.isEmpty), ds ++ part, rest, false⟩ := by
  have hnext : NotNext Char.isDigit (part ++ rest) := notNext_append hpart.head? hend.isDigit
  rw [List.append_assoc]
  cases h with
  | positive h =>
    have hminus : (ds ++ (part ++ rest)).head? ≠ some '-' := by
      cases h with
      | zero => simp
      | digits hds =>
        obtain ⟨d, ds, rfl⟩ := List.exists_cons_of_ne_nil hds.ne_nil
        have hd := hds.digits d (by simp)
        rintro ⟨⟩
        exact absurd hd (by decide)
    rw [scanNumber_of_head?_ne hminus, scanUnsigned_eq h hnext]
    exact scanFraction_eq hpart hend
  | negative h =>
    rw [List.cons_append, scanNumber_minus, scanUnsigned_eq h hnext]
    exact scanFraction_eq hpart hend

/-! ### Strings -/

theorem scanString_append {body : List Char} (h : IsQuoted body) (tail : List Char) :
    scanString taken (body ++ tail) = scanString (body.reverse ++ taken) tail := by
  induction h generalizing taken with
  | nil => rfl
  | @plain c cs hquote hescape hline _ ih =>
    rw [List.cons_append, scanString]
    · rw [if_neg hquote, if_neg (by simpa using hline), ih]
      simp
    · rintro rfl
      exact absurd rfl hescape
    · rintro _ _ rfl
      exact absurd rfl hescape
  | @escape c cs _ ih =>
    rw [List.cons_append, List.cons_append, scanString, ih]
    simp

/-- A string is scanned as a quoted part, with what stands where that part ends. -/
theorem scanString_sound (taken input : List Char) :
    ∃ body tail, IsQuoted body ∧ input = body ++ tail ∧
      ((scanString taken input = ⟨.error, taken.reverse ++ body, tail, false⟩ ∧
          (tail = [] ∨ ∃ c cs, tail = c :: cs ∧ (c = '\n' ∨ c = '\r'))) ∨
        (tail = ['\\'] ∧ scanString taken input = ⟨.error, taken.reverse ++ body ++ ['\\'], [], true⟩) ∨
        ∃ rest, tail = '"' :: rest ∧ scanString taken input = ⟨.string, taken.reverse ++ body ++ ['"'], rest, false⟩) := by
  fun_induction scanString taken input with
  | case1 taken => exact ⟨[], [], .nil, rfl, .inl ⟨by simp, .inl rfl⟩⟩
  | case2 taken => exact ⟨[], ['\\'], .nil, rfl, .inr (.inl ⟨rfl, by simp⟩)⟩
  | case3 taken c rest ih =>
    obtain ⟨body, tail, hbody, rfl, h⟩ := ih
    refine ⟨'\\' :: c :: body, tail, .escape hbody, rfl, ?_⟩
    simpa using h
  | case4 taken rest _ _ => exact ⟨[], '"' :: rest, .nil, rfl, .inr (.inr ⟨rest, rfl, by simp⟩)⟩
  | case5 taken c rest _ _ _ hline => exact ⟨[], c :: rest, .nil, rfl, .inl ⟨by simp, .inr ⟨c, rest, rfl, hline⟩⟩⟩
  | case6 taken c rest hlast hescape hquote hline ih =>
    obtain ⟨body, tail, hbody, rfl, h⟩ := ih
    have hc : c ≠ '\\' := by
      rintro rfl
      cases hrest : body ++ tail with
      | nil => exact hlast rfl hrest
      | cons d r => exact hescape d r rfl hrest
    refine ⟨c :: body, tail, .plain hquote hc (by simpa using hline) hbody, rfl, ?_⟩
    simpa using h

/-! ### Block strings -/

theorem IsBlock.three_le_length {tail : List Char} (h : IsBlock tail) : 3 ≤ tail.length := by
  induction h with
  | close => exact Nat.le_refl 3
  | escape => simp [tripleQuote]
  | plain _ _ _ ih => exact Nat.le_succ_of_le ih

/-- What a text does not start with, it does not start with when it goes on, if it is long enough. -/
private theorem not_prefix_append {l cs : List Char} (h : ¬ l <+: cs) (hlength : l.length ≤ cs.length) (rest : List Char) :
    ¬ l <+: cs ++ rest :=
  fun hprefix => h (List.prefix_of_prefix_length_le hprefix (List.prefix_append cs rest) hlength)

theorem scanBlockString_plain {c : Char} {cs : List Char} (hclose : ¬ tripleQuote <+: c :: cs)
    (hescape : ¬ '\\' :: tripleQuote <+: c :: cs) : scanBlockString taken (c :: cs) = scanBlockString (c :: taken) cs := by
  rw [scanBlockString]
  · rintro r rfl rfl
    exact hclose ⟨r, rfl⟩
  · rintro r rfl rfl
    exact hescape ⟨r, rfl⟩

/-- A scan takes all of a block string. -/
theorem scanBlockString_eq {tail : List Char} (h : IsBlock tail) :
    scanBlockString taken (tail ++ rest) = ⟨.blockString, taken.reverse ++ tail, rest, false⟩ := by
  induction h generalizing taken with
  | close => simp [tripleQuote, scanBlockString]
  | @escape cs _ ih =>
    have hstep : scanBlockString taken ('\\' :: (tripleQuote ++ cs) ++ rest) =
        scanBlockString ('"' :: '"' :: '"' :: '\\' :: taken) (cs ++ rest) := rfl
    rw [hstep, ih]
    simp [tripleQuote]
  | @plain c cs hclose hescape h ih =>
    have hlength := h.three_le_length
    have hclose' := not_prefix_append hclose (by simp [tripleQuote]; omega) rest
    have hescape' := not_prefix_append hescape (by simp [tripleQuote]; omega) rest
    rw [List.cons_append] at hclose' hescape' ⊢
    rw [scanBlockString_plain hclose' hescape', ih]
    simp

/-- A block string is scanned up to its end, or to the end of the source if it has none. -/
theorem scanBlockString_sound (taken input : List Char) :
    scanBlockString taken input = ⟨.error, taken.reverse ++ input, [], false⟩ ∨
      ∃ tail rest, IsBlock tail ∧ input = tail ++ rest ∧
        scanBlockString taken input = ⟨.blockString, taken.reverse ++ tail, rest, false⟩ := by
  fun_induction scanBlockString taken input with
  | case1 taken => exact .inl (by simp)
  | case2 taken rest => exact .inr ⟨tripleQuote, rest, .close, rfl, by simp [tripleQuote]⟩
  | case3 taken rest ih =>
    rcases ih with h | ⟨tail, rest', htail, rfl, h⟩
    · exact .inl (by simpa using h)
    · exact .inr ⟨_, rest', .escape htail, by simp [tripleQuote], by simpa [tripleQuote] using h⟩
  | case4 taken c rest hclose hescape ih =>
    rcases ih with h | ⟨tail, rest', htail, rfl, h⟩
    · exact .inl (by simpa using h)
    · refine .inr ⟨c :: tail, rest', .plain ?_ ?_ htail, rfl, by simpa using h⟩
      · rintro ⟨r, hr⟩
        obtain ⟨hc, htail⟩ := List.cons.inj hr
        exact hclose (r ++ rest') hc.symm (by rw [← htail]; rfl)
      · rintro ⟨r, hr⟩
        obtain ⟨hc, htail⟩ := List.cons.inj hr
        exact hescape (r ++ rest') hc.symm (by rw [← htail]; rfl)

/-! ### Tokens -/

theorem ofChar?_eq_some {c : Char} {p : Punctuator} (h : Punctuator.ofChar? c = some p) : p.text.toList = [c] := by
  unfold Punctuator.ofChar? at h
  split at h
  all_goals first | (obtain rfl := Option.some.inj h; rfl) | cases h

/-- A scan is sound: it takes the front of what it is given, by the rules. -/
theorem scan_sound (c : Char) (rest : List Char) : Sound (c :: rest) (scan c rest) := by
  unfold scan
  split
  · rename_i p hp
    refine ⟨rfl, by simp, fun _ => ?_, nofun⟩
    dsimp only
    rw [← ofChar?_eq_some hp]
    exact .punctuator
  · exact ⟨rfl, by simp, fun _ => .punctuator (p := .spread), nofun⟩
  · rename_i rest _
    rcases scanBlockString_sound ['"', '"', '"'] rest with h | ⟨tail, rest', htail, rfl, h⟩
    · rw [h]
      have hsound := sound_error (tripleQuote ++ rest) [] (by simp [tripleQuote])
      rw [List.append_nil] at hsound
      exact hsound
    · rw [h]
      exact ⟨rfl, by simp, fun _ => .blockString htail, nofun⟩
  · rename_i rest _ _ _ hblock _
    obtain ⟨body, tail, hbody, rfl, ⟨h, -⟩ | ⟨rfl, h⟩ | ⟨rest', rfl, h⟩⟩ := scanString_sound ['"'] rest
    · rw [h]
      exact sound_error ('"' :: body) _ (by simp)
    · rw [h]
      exact ⟨by simp, by simp, fun h => absurd rfl h, fun _ => ⟨rfl, rfl, body, hbody, rfl⟩⟩
    · rw [h]
      refine ⟨by simp, by simp, fun _ => .string hbody fun hnil hquote => ?_, nofun⟩
      subst hnil
      obtain ⟨r, rfl⟩ := List.head?_eq_some_iff.1 hquote
      exact hblock r rfl
  · rename_i rest _ _ _ _ _ _ _
    split
    · rename_i hname
      obtain ⟨more, rest', hspan⟩ : ∃ more rest', rest.span isNameContinue = (more, rest') := ⟨_, _, rfl⟩
      obtain ⟨rfl, hmore, hnext⟩ := span_eq_iff.1 hspan
      rw [hspan]
      exact ⟨rfl, by simp, fun _ => .name hname hmore hnext, nofun⟩
    · split
      · rename_i hnumber
        exact scanNumber_sound hnumber _
      · exact sound_error [_] _ (by simp)

/-- A character that is in a name or in front of a number opens nothing else. -/
private theorem scan_word {c : Char} (hc : isNameContinue c = true ∨ c = '-') :
    scan c rest =
      if isNameStart c then
        match rest.span isNameContinue with
        | (more, rest) => ⟨.name, c :: more, rest, false⟩
      else if c = '-' ∨ c.isDigit then scanNumber (c :: rest)
      else ⟨.error, [c], rest, false⟩ := by
  have hnone : Punctuator.ofChar? c = none := by
    unfold Punctuator.ofChar?
    split <;> first | exact absurd hc (by decide) | rfl
  unfold scan
  split
  · rename_i hp
    rw [hnone] at hp
    cases hp
  · exact absurd hc (by decide)
  · exact absurd hc (by decide)
  · exact absurd hc (by decide)
  · rfl

theorem isNameContinue_of_isNameStart {c : Char} (hc : isNameStart c = true) : isNameContinue c = true := by
  rcases Bool.or_eq_true_iff.1 hc with halpha | hunderscore
  · simp [isNameContinue, Char.isAlphanum, halpha]
  · simp [isNameContinue, hunderscore]

private theorem isNameStart_of_isDigit {c : Char} (hc : c.isDigit = true) : isNameStart c = false := by
  have hrange : 48 ≤ c.toNat ∧ c.toNat ≤ 57 := by
    simpa [Char.isDigit, UInt32.le_iff_toNat_le] using hc
  have hunderscore : c ≠ '_' := by
    rintro rfl
    simp at hrange
  have hbelow : ∀ d : Char, 57 < d.toNat → ¬ d.val ≤ c.val := fun d hd hle => by
    have hnat : d.toNat ≤ c.toNat := UInt32.le_iff_toNat_le.1 hle
    omega
  have halpha : c.isAlpha = false := by
    show (decide (c.val ≥ 'A'.val ∧ c.val ≤ 'Z'.val) || (decide (c.val ≥ 'a'.val) && decide (c.val ≤ 'z'.val))) = false
    rw [decide_eq_false fun h => hbelow 'A' (by decide) h.1, decide_eq_false (hbelow 'a' (by decide))]
    rfl
  simp [isNameStart, halpha, hunderscore]

theorem IsInteger.head {c : Char} {cs : List Char} (h : IsInteger (c :: cs)) : c = '-' ∨ c.isDigit = true := by
  cases h with
  | positive h =>
    cases h with
    | zero => exact .inr rfl
    | digits h => exact .inr (h.digits c (by simp))
  | negative => exact .inl rfl

theorem scan_number {c : Char} (hc : c = '-' ∨ c.isDigit = true) : scan c rest = scanNumber (c :: rest) := by
  have hstart : isNameStart c = false := by
    rcases hc with rfl | hc
    · rfl
    · exact isNameStart_of_isDigit hc
  have hword : isNameContinue c = true ∨ c = '-' := by
    rcases hc with rfl | hc
    · exact .inr rfl
    · exact .inl (by simp [isNameContinue, Char.isAlphanum, hc])
  rw [scan_word hword, hstart, if_neg (by simp), if_pos hc]

/-- Without three quotes a string opens that is no block string. -/
private theorem scan_quote (hopen : ∀ r, rest ≠ '"' :: '"' :: r) : scan '"' rest = scanString ['"'] rest :=
  scan.eq_4 rest hopen

/-- A scan is complete: where a token starts by the rules, a scan takes it, and all of it. -/
theorem Lexeme.scan_eq {kind : TokenKind} {text : List Char} (h : Lexeme kind text rest) :
    ∃ c cs, text = c :: cs ∧ scan c (cs ++ rest) = ⟨kind, text, rest, false⟩ := by
  have hnumber : ∀ {ds part : List Char}, IsInteger ds → IsTail part → NotNext runsOn rest →
      ∃ c cs, ds ++ part = c :: cs ∧ scan c (cs ++ rest) = ⟨numberKind (!part.isEmpty), ds ++ part, rest, false⟩ := by
    intro ds part hds hpart hend
    obtain ⟨c, cs, rfl⟩ := List.exists_cons_of_ne_nil hds.ne_nil
    refine ⟨c, cs ++ part, rfl, ?_⟩
    rw [scan_number hds.head, ← scanNumber_eq hds hpart hend]
    rfl
  cases h with
  | @punctuator p => cases p <;> exact ⟨_, _, rfl, rfl⟩
  | @name c cs _ hc hcs hend =>
    refine ⟨c, cs, rfl, ?_⟩
    rw [scan_word (.inl (isNameContinue_of_isNameStart hc)), if_pos hc, span_eq_iff.2 ⟨rfl, hcs, hend⟩]
  | int h hend =>
    have heq := hnumber h ⟨[], [], rfl, .none, .none⟩ hend
    rwa [List.append_nil, List.append_nil] at heq
  | @float ds fraction exponent _ h hfraction hexponent hne hend =>
    have heq := hnumber h ⟨_, _, rfl, hfraction, hexponent⟩ hend
    rw [List.append_assoc]
    rwa [List.isEmpty_eq_false_iff.2 hne] at heq
  | @string body _ hbody hend =>
    refine ⟨'"', body ++ ['"'], rfl, ?_⟩
    have hscan : scanString ['"'] (body ++ ['"'] ++ rest) = ⟨.string, '"' :: body ++ ['"'], rest, false⟩ := by
      rw [List.append_assoc, scanString_append hbody]
      simp [scanString]
    have hopen : ∀ r, body ++ ['"'] ++ rest ≠ '"' :: '"' :: r := by
      intro r heq
      cases hbody with
      | nil => exact hend rfl (congrArg List.head? (List.cons.inj heq).2)
      | plain hquote => exact hquote (List.cons.inj heq).1
      | escape => exact absurd (List.cons.inj heq).1 (by decide)
    rw [scan_quote hopen, hscan]
  | @blockString tail _ h => exact ⟨'"', _, rfl, scanBlockString_eq h⟩

/-- A scan comes to an error exactly where no token starts. -/
theorem scan_kind_eq_error_iff (c : Char) (rest : List Char) :
    (scan c rest).kind = .error ↔ ∀ kind text rest', Lexeme kind text rest' → text ++ rest' ≠ c :: rest := by
  constructor
  · intro herror kind text rest' h heq
    obtain ⟨d, ds, rfl, hscan⟩ := h.scan_eq
    obtain ⟨rfl, rfl⟩ := List.cons.inj heq
    obtain rfl : kind = .error := (congrArg Scanned.kind hscan).symm.trans herror
    cases h
  · intro hnone
    by_contra hkind
    have hsound := scan_sound c rest
    exact hnone _ _ _ (hsound.lexeme hkind) hsound.parts.symm

/-- A scan goes beyond the source exactly at a string that is cut off after a backslash. -/
theorem scan_overrun_iff (c : Char) (rest : List Char) : (scan c rest).overrun = true ↔ Severed (c :: rest) := by
  constructor
  · intro hoverrun
    have hsound := scan_sound c rest
    obtain ⟨-, hrest, hsevered⟩ := hsound.overrun hoverrun
    rwa [hsound.parts, hrest, List.append_nil]
  · intro hsevered
    obtain ⟨body, hbody, heq⟩ := hsevered
    obtain ⟨rfl, rfl⟩ := List.cons.inj heq
    have hopen : ∀ r, body ++ ['\\'] ≠ '"' :: '"' :: r := by
      intro r heq
      cases hbody with
      | nil => exact absurd (List.cons.inj heq).1 (by decide)
      | plain hquote => exact hquote (List.cons.inj heq).1
      | escape => exact absurd (List.cons.inj heq).1 (by decide)
    have hscan : scan '"' (body ++ ['\\']) = scanString (body.reverse ++ ['"']) ['\\'] := by
      rw [scan_quote hopen, scanString_append hbody]
    exact congrArg Scanned.overrun hscan

end Lexer

end GraphQL
