import GraphQL.Document.Parser
import GraphQL.Proofs.Document.Covering
import GraphQL.Proofs.Document.Lexemes
import Mathlib.Data.List.Induction
import Mathlib.Tactic.IntervalCases

/-!
# Reading numbers and names

The grammar says by itself what digits, integers, decimal numbers and names spell.  What is read of them is that
(`Grammar.Integer.intOfText_eq`, `Grammar.Numeral.read?_eq`, `Token.spells_name_iff`), and each token of a source that is a
number has the text of one (`formed_tokenize`).
-/

namespace GraphQL

open Lexer GraphQL.Parser

namespace Grammar

variable {c : Char} {ds cs mark fraction : List Char} {d n digits : Nat} {i exponent : Int} {negative : Bool}

/-! ### Digits -/

theorem isDigit_iff : IsDigit c d ↔ c.isDigit = true ∧ d = c.toNat - 48 := by
  constructor
  · intro h
    have hlt : d < 10 := (List.getElem?_eq_some_iff.1 h).1
    unfold IsDigit at h
    interval_cases d <;> obtain rfl := Option.some.inj h <;> decide
  · rintro ⟨hdigit, rfl⟩
    obtain ⟨hlow, hhigh⟩ : 48 ≤ c.toNat ∧ c.toNat ≤ 57 := by
      simpa [Char.isDigit, UInt32.le_iff_toNat_le] using hdigit
    -- the character is the one with its number
    have hofNat : Char.ofNat c.toNat = c := Char.ofNat_toNat c
    generalize c.toNat = k at *
    subst hofNat
    interval_cases k <;> rfl

theorem Digits.natOfDigits_eq (h : Digits ds n) : Double.natOfDigits ds = n := by
  induction h with
  | @single c d h =>
    obtain ⟨-, rfl⟩ := isDigit_iff.1 h
    simp [Double.natOfDigits]
  | @snoc ds n c d _ h ih =>
    obtain ⟨-, rfl⟩ := isDigit_iff.1 h
    unfold Double.natOfDigits at ih ⊢
    rw [List.foldl_append, ih]
    rfl

theorem Digits.isDigits (h : Digits ds n) : IsDigits ds := by
  induction h with
  | single h => exact ⟨by simp, by simp [(isDigit_iff.1 h).1]⟩
  | snoc _ h ih =>
    refine ⟨by simp, fun c hc => ?_⟩
    rcases List.mem_append.1 hc with hc | hc
    · exact ih.digits c hc
    · rw [List.mem_singleton.1 hc]
      exact (isDigit_iff.1 h).1

/-- Digits are a number. -/
theorem exists_digits (h : IsDigits ds) : ∃ n, Digits ds n := by
  obtain ⟨hne, hdigits⟩ := h
  induction ds using List.reverseRecOn with
  | nil => exact absurd rfl hne
  | append_singleton ds c ih =>
    have hc := isDigit_iff.2 ⟨hdigits c (by simp), rfl⟩
    by_cases hds : ds = []
    · subst hds
      exact ⟨_, .single hc⟩
    · obtain ⟨n, hn⟩ := ih hds fun d hd => hdigits d (List.mem_append_left _ hd)
      exact ⟨_, .snoc hn hc⟩

/-- A digit is no other character. -/
theorem Digits.head_ne (h : Digits (c :: ds) n) {other : Char} (hother : other.isDigit = false) : c ≠ other := by
  rintro rfl
  rw [h.isDigits.digits c List.mem_cons_self] at hother
  cases hother

/-! ### Integers -/

theorem Integer.intOfText_eq {text : String} (h : Integer text.toList i) : intOfText text = i := by
  unfold intOfText
  generalize text.toList = cs at h
  cases h with
  | positive h =>
    split
    · exact absurd rfl (h.head_ne rfl)
    · rw [h.natOfDigits_eq]
  | negative h =>
    show -(Double.natOfDigits _ : Int) = _
    rw [h.natOfDigits_eq]

/-! ### Decimal numbers -/

theorem Exponent.readExponent?_eq (h : Exponent mark exponent) : Double.readExponent? mark = some exponent := by
  have hread : ∀ {ds n} (negative : Bool), Digits ds n →
      (if ds.isEmpty ∨ ¬ ds.all Char.isDigit then Option.none
        else Option.some (if negative then -(Double.natOfDigits ds : Int) else Double.natOfDigits ds)) =
        Option.some (if negative then -(n : Int) else n) := by
    intro ds n negative h
    obtain ⟨hne, hdigits⟩ := h.isDigits
    have hnot : ¬ (ds.isEmpty ∨ ¬ ds.all Char.isDigit) := by simpa [hne] using hdigits
    rw [if_neg hnot, h.natOfDigits_eq]
  unfold Double.readExponent?
  cases h with
  | none => rfl
  | unsigned he h =>
    dsimp only
    rw [if_pos he]
    split
    · exact absurd rfl (h.head_ne rfl)
    · exact absurd rfl (h.head_ne rfl)
    · exact hread false h
  | positive he h =>
    dsimp only
    rw [if_pos he]
    exact hread false h
  | negative he h =>
    dsimp only
    rw [if_pos he]
    exact hread true h

theorem Exponent.notNext (h : Exponent mark exponent) : NotNext Char.isDigit mark := by
  intro c hc
  cases h with
  | none => cases hc
  | unsigned he | positive he | negative he =>
    obtain rfl := Option.some.inj hc
    rcases he with rfl | rfl <;> rfl

/-- Digits are read as far as they go. -/
theorem spanDigits_append (hds : ∀ c ∈ ds, c.isDigit = true) (hcs : NotNext Char.isDigit cs) :
    Double.spanDigits (ds ++ cs) = (ds, cs) :=
  span_eq_iff.2 ⟨rfl, hds, hcs⟩

theorem Unsigned.readUnsigned?_eq (h : Unsigned cs digits exponent) (negative : Bool) :
    Double.readUnsigned? negative cs = some (.ofDecimal negative digits exponent) := by
  obtain ⟨hwhole, hfraction, hdigits, hexponent⟩ := h
  rename_i whole point fraction mark exponent
  have hwholeDigits : ∀ c ∈ whole, c.isDigit = true := fun c hc => hdigits.isDigits.digits c (List.mem_append_left _ hc)
  have hread : (if whole.isEmpty && fraction.isEmpty then none
      else (Double.readExponent? mark).map fun exponent =>
        Double.ofDecimal negative (Double.natOfDigits (whole ++ fraction)) (exponent - fraction.length)) =
      some (.ofDecimal negative digits (exponent - fraction.length)) := by
    rw [if_neg (by simp [hwhole]), hexponent.readExponent?_eq, hdigits.natOfDigits_eq]
    rfl
  unfold Double.readUnsigned?
  rw [List.append_assoc]
  cases hfraction with
  | none =>
    rw [List.nil_append, spanDigits_append hwholeDigits hexponent.notNext]
    dsimp only
    split
    · cases hexponent with
      | unsigned he | positive he | negative he => exact absurd he (by decide)
    · exact hread
  | some =>
    have hfractionDigits := spanDigits_append (fun c hc => hdigits.isDigits.digits c (List.mem_append_right _ hc))
      hexponent.notNext
    rw [List.cons_append, spanDigits_append hwholeDigits (notNext_cons.2 rfl)]
    simp only [hfractionDigits]
    exact hread

/-- A number without a sign starts with a digit. -/
theorem Unsigned.exists_cons (h : Unsigned cs digits exponent) : ∃ c rest, cs = c :: rest ∧ c.isDigit = true := by
  obtain ⟨hwhole, -, hdigits, -⟩ := h
  rename_i whole point fraction mark exponent
  obtain ⟨c, rest, rfl⟩ := List.exists_cons_of_ne_nil hwhole
  exact ⟨c, rest ++ point ++ mark, rfl, hdigits.isDigits.digits c (by simp)⟩

/-- What starts with a digit is no word. -/
theorem ofList_toLower_ne {rest : List Char} (hc : c.isDigit = true) {word : String}
    (hword : word.toList.head?.any Char.isDigit = false) : String.ofList ((c :: rest).map Char.toLower) ≠ word := by
  rintro rfl
  have hlower : c.toLower = c := by
    obtain ⟨d, hd⟩ : ∃ d, IsDigit c d := ⟨_, isDigit_iff.2 ⟨hc, rfl⟩⟩
    have hlt : d < 10 := (List.getElem?_eq_some_iff.1 hd).1
    unfold IsDigit at hd
    interval_cases d <;> obtain rfl := Option.some.inj hd <;> decide
  simp [hlower, hc] at hword

theorem Numeral.read?_eq {text : String} (h : Numeral text.toList negative digits exponent) :
    Double.read? text = some (.ofDecimal negative digits exponent) := by
  have hread : ∀ {cs negative}, Unsigned cs digits exponent →
      (if String.ofList (cs.map Char.toLower) = "inf" ∨ String.ofList (cs.map Char.toLower) = "infinity" then
        some (Double.infinity negative)
      else if String.ofList (cs.map Char.toLower) = "nan" then some (Double.nan negative)
      else Double.readUnsigned? negative cs) = some (.ofDecimal negative digits exponent) := by
    intro cs negative h
    obtain ⟨c, rest, rfl, hc⟩ := h.exists_cons
    rw [if_neg (not_or.2 ⟨ofList_toLower_ne hc (by decide), ofList_toLower_ne hc (by decide)⟩),
      if_neg (ofList_toLower_ne hc (by decide)), h.readUnsigned?_eq]
  unfold Double.read?
  generalize text.toList = cs at h
  cases h with
  | positive h =>
    obtain ⟨c, rest, hcs, hc⟩ := h.exists_cons
    split
    rename_i heq
    split at heq
    · obtain ⟨rfl, -⟩ := List.cons.inj hcs
      exact absurd hc (by decide)
    · obtain ⟨rfl, -⟩ := List.cons.inj hcs
      exact absurd hc (by decide)
    · obtain ⟨rfl, rfl⟩ := Prod.mk.inj heq
      exact hread h
  | negative h => exact hread h

end Grammar

/-! ### Tokens that are values -/

namespace Token

variable {t : Token} {v : Literal}

theorem Formed.exists_integer (h : t.Formed) (hkind : t.kind = .int) : ∃ i, Grammar.Integer t.text.toList i := by
  obtain ⟨v, hv⟩ := h (.inl hkind)
  cases hv with
  | int _ hi => exact ⟨_, hi⟩
  | float hkind' | string hkind' | blockString hkind' | constant hkind' | enumValue hkind' =>
    rw [hkind] at hkind'
    cases hkind'

theorem Formed.spells_int_iff (h : t.Formed) (hkind : t.kind = .int) : t.Spells v ↔ v = .int (intOfText t.text) := by
  constructor
  · intro hv
    cases hv with
    | int _ hi => rw [hi.intOfText_eq]
    | float hkind' | string hkind' | blockString hkind' | constant hkind' | enumValue hkind' =>
      rw [hkind] at hkind'
      cases hkind'
  · rintro rfl
    obtain ⟨i, hi⟩ := h.exists_integer hkind
    rw [hi.intOfText_eq]
    exact .int hkind hi

theorem Formed.valid_int_iff (h : t.Formed) (hkind : t.kind = .int) :
    t.Valid ↔ IntRange.int64.holds (intOfText t.text) = true := by
  have hrange : ∀ i, IntRange.int64.holds i = true ↔ -9223372036854775808 ≤ i ∧ i ≤ 9223372036854775807 :=
    fun _ => decide_eq_true_iff
  constructor
  · intro hvalid
    obtain ⟨i, hi, hbounds⟩ := hvalid.int hkind
    rwa [hi.intOfText_eq, hrange]
  · intro hholds
    obtain ⟨i, hi⟩ := h.exists_integer hkind
    rw [hi.intOfText_eq, hrange] at hholds
    exact ⟨by simp [hkind], fun _ => ⟨i, hi, hholds⟩, by simp [hkind]⟩

theorem Formed.spells_float_iff (h : t.Formed) (hkind : t.kind = .float) :
    t.Spells v ↔ v = (Double.read? t.text).elim .null .float := by
  have hread : ∀ {v}, t.Spells v → v = (Double.read? t.text).elim .null .float := by
    intro v hv
    cases hv with
    | float _ hnumber =>
      rw [hnumber.read?_eq]
      rfl
    | int hkind' | string hkind' | blockString hkind' | constant hkind' | enumValue hkind' =>
      rw [hkind] at hkind'
      cases hkind'
  refine ⟨hread, ?_⟩
  rintro rfl
  obtain ⟨v, hv⟩ := h (.inr hkind)
  rwa [← hread hv]

theorem spells_string_iff (hkind : t.kind = .string) :
    t.Spells v ↔ ∃ value, stringValue? t.text = some value ∧ v = .string value := by
  constructor
  · intro hv
    cases hv with
    | string _ hvalue => exact ⟨_, hvalue, rfl⟩
    | int hkind' | float hkind' | blockString hkind' | constant hkind' | enumValue hkind' =>
      rw [hkind] at hkind'
      cases hkind'
  · rintro ⟨value, hvalue, rfl⟩
    exact .string hkind hvalue

theorem spells_blockString_iff (hkind : t.kind = .blockString) : t.Spells v ↔ v = .string (blockStringValue t.text) := by
  constructor
  · intro hv
    cases hv with
    | blockString => rfl
    | int hkind' | float hkind' | string hkind' | constant hkind' | enumValue hkind' =>
      rw [hkind] at hkind'
      cases hkind'
  · rintro rfl
    exact .blockString hkind

theorem spells_name_iff (hkind : t.kind = .name) : t.Spells v ↔ v = nameLiteral t.text := by
  unfold nameLiteral
  constructor
  · intro hv
    cases hv with
    | constant _ h =>
      simp only [Grammar.constants, List.mem_cons, Prod.mk.injEq, List.not_mem_nil, or_false] at h
      rcases h with ⟨htext, rfl⟩ | ⟨htext, rfl⟩ | ⟨htext, rfl⟩ <;> simp [htext]
    | enumValue _ h =>
      simp only [Grammar.constants, List.map_cons, List.map_nil, List.mem_cons, List.not_mem_nil, or_false, not_or] at h
      simp [h]
    | int hkind' | float hkind' | string hkind' | blockString hkind' =>
      rw [hkind] at hkind'
      cases hkind'
  · rintro rfl
    split
    · rename_i h
      exact .constant hkind (by simp [h, Grammar.constants])
    · split
      · rename_i h
        exact .constant hkind (by simp [h, Grammar.constants])
      · split
        · rename_i h
          exact .constant hkind (by simp [h, Grammar.constants])
        · exact .enumValue hkind (by simp [Grammar.constants, *])

end Token

/-! ### Numbers of a source -/

namespace Lexer

theorem IsNatural.isDigits {ds : List Char} (h : IsNatural ds) : IsDigits ds := by
  cases h with
  | zero => exact ⟨by simp, by simp⟩
  | digits h => exact h

theorem IsExponent.exists_exponent {mark : List Char} (h : IsExponent mark) : ∃ exponent, Grammar.Exponent mark exponent := by
  cases h with
  | none => exact ⟨_, .none⟩
  | some he hsign h =>
    obtain ⟨n, hn⟩ := Grammar.exists_digits h
    cases hsign with
    | none => exact ⟨_, .unsigned he hn⟩
    | plus => exact ⟨_, .positive he hn⟩
    | minus => exact ⟨_, .negative he hn⟩

theorem IsInteger.exists_integer {ds : List Char} (h : IsInteger ds) : ∃ i, Grammar.Integer ds i := by
  cases h with
  | positive h =>
    obtain ⟨n, hn⟩ := Grammar.exists_digits h.isDigits
    exact ⟨_, .positive hn⟩
  | negative h =>
    obtain ⟨n, hn⟩ := Grammar.exists_digits h.isDigits
    exact ⟨_, .negative hn⟩

/-- Digits with a fraction and an exponent are a decimal number. -/
theorem IsDigits.exists_unsigned {whole point mark : List Char} (h : IsDigits whole) (hfraction : IsFraction point)
    (hexponent : IsExponent mark) : ∃ digits exponent, Grammar.Unsigned (whole ++ point ++ mark) digits exponent := by
  obtain ⟨exponent, hexponent⟩ := hexponent.exists_exponent
  obtain ⟨fraction, hpoint, hall⟩ : ∃ fraction, Grammar.Fraction point fraction ∧ ∀ c ∈ fraction, c.isDigit = true := by
    cases hfraction with
    | none => exact ⟨[], .none, by simp⟩
    | some hds => exact ⟨_, .some hds.ne_nil, hds.digits⟩
  obtain ⟨digits, hdigits⟩ : ∃ digits, Grammar.Digits (whole ++ fraction) digits := by
    refine Grammar.exists_digits ⟨by simp [h.ne_nil], fun c hc => ?_⟩
    rcases List.mem_append.1 hc with hc | hc
    · exact h.digits c hc
    · exact hall c hc
  exact ⟨_, _, .mk h.ne_nil hpoint hdigits hexponent⟩

/-- An integer with a fraction and an exponent is a decimal number. -/
theorem IsInteger.exists_number {ds point mark : List Char} (h : IsInteger ds) (hfraction : IsFraction point)
    (hexponent : IsExponent mark) :
    ∃ negative digits exponent, Grammar.Numeral (ds ++ point ++ mark) negative digits exponent := by
  cases h with
  | positive h =>
    obtain ⟨digits, exponent, hunsigned⟩ := h.isDigits.exists_unsigned hfraction hexponent
    exact ⟨_, _, _, .positive hunsigned⟩
  | negative h =>
    obtain ⟨digits, exponent, hunsigned⟩ := h.isDigits.exists_unsigned hfraction hexponent
    exact ⟨_, _, _, .negative hunsigned⟩

theorem Lexeme.formed {t : Token} {rest : List Char} (h : Lexeme t.kind t.text.toList rest) : t.Formed := by
  intro hkind
  generalize hk : t.kind = kind at h hkind
  generalize ht : t.text.toList = text at h
  cases h with
  | int h =>
    obtain ⟨i, hi⟩ := h.exists_integer
    rw [← ht] at hi
    exact ⟨_, .int hk hi⟩
  | float h hfraction hexponent =>
    obtain ⟨negative, digits, exponent, hnumber⟩ := h.exists_number hfraction hexponent
    rw [← ht] at hnumber
    exact ⟨_, .float hk hnumber⟩
  | punctuator | name | string | blockString => simp at hkind

theorem formed_tokensFrom (fuel offset : Nat) (cs : List Char) : ∀ t ∈ tokensFrom fuel offset cs, t.Formed := by
  have hend : ∀ {offset}, Token.Formed ⟨.endOfFile, .empty offset, ""⟩ := by simp [Token.Formed]
  induction fuel generalizing offset cs with
  | zero => simpa [tokensFrom] using hend
  | succ fuel ih =>
    unfold tokensFrom
    split
    · simpa using hend
    · rename_i c rest _
      refine List.forall_mem_cons.2 ⟨?_, ih _ _⟩
      intro (hkind : (scan c rest).kind = .int ∨ (scan c rest).kind = .float)
      -- an error is no number
      have hne : (scan c rest).kind ≠ .error := by
        rcases hkind with h | h <;> simp [h]
      have hlexeme := (scan_sound c rest).lexeme hne
      exact Lexeme.formed (by simpa using hlexeme) hkind

end Lexer

/-- Each token of a source that is a number has the text of one. -/
theorem formed_tokenize (source : String) : ∀ t ∈ tokenize source, t.Formed := formed_tokensFrom _ _ _

end GraphQL
