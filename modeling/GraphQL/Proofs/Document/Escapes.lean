import GraphQL.Document.StringLiteral
import Mathlib.Tactic.IntervalCases

/-!
# Escapes in quoted strings

What stands between the quotes of a string is made of characters that are no backslash, which stand for themselves, and of
escapes.  `Decodes quad body value` says that the body stands for the value, where `quad` says which four characters after
an escaped `u` stand for which character.

There ought to be four hexadecimal digits (`IsNumbered`).  In fact a plus sign may stand in the place of the first of them,
as if it were a zero (`IsNumberedOrSigned`); with that, a string has a value exactly if its body stands for one
(`StringLiteral.decoded_iff`).
-/

namespace GraphQL

namespace StringLiteral

/-! ### What a body stands for -/

/-- A hexadecimal digit, small or capital, with its value. -/
def IsHexDigit (c : Char) (n : Nat) : Prop :=
  "0123456789abcdef".toList[n]? = some c ∨ "0123456789ABCDEF".toList[n]? = some c

/-- Four hexadecimal digits are the number of the character. -/
inductive IsNumbered : List Char → Char → Prop
  | mk {a b c d ch : Char} {x y z w : Nat} (ha : IsHexDigit a x) (hb : IsHexDigit b y) (hc : IsHexDigit c z)
      (hd : IsHexDigit d w) (hch : ch.toNat = 4096 * x + 256 * y + 16 * z + w) : IsNumbered [a, b, c, d] ch

/-- Four hexadecimal digits are the number of the character, or a plus sign and three of them are. -/
inductive IsNumberedOrSigned : List Char → Char → Prop
  | digits {quad ch} (h : IsNumbered quad ch) : IsNumberedOrSigned quad ch
  | signed {b c d ch} (h : IsNumbered ['0', b, c, d] ch) : IsNumberedOrSigned ['+', b, c, d] ch

/-- The escapes of one character, with what they stand for. -/
def simpleEscapes : List (Char × Char) :=
  [('"', '"'), ('\\', '\\'), ('/', '/'), ('b', '\x08'), ('f', '\x0c'), ('n', '\n'), ('r', '\r'), ('t', '\t')]

/-- What the body of a string stands for. -/
inductive Decodes (quad : List Char → Char → Prop) : List Char → List Char → Prop
  | nil : Decodes quad [] []
  | plain {c cs value} (h : c ≠ '\\') (hcs : Decodes quad cs value) : Decodes quad (c :: cs) (c :: value)
  | simple {e ch cs value} (h : (e, ch) ∈ simpleEscapes) (hcs : Decodes quad cs value) :
      Decodes quad ('\\' :: e :: cs) (ch :: value)
  | unicode {digits ch cs value} (h : quad digits ch) (hcs : Decodes quad cs value) :
      Decodes quad ('\\' :: 'u' :: (digits ++ cs)) (ch :: value)

theorem Decodes.mono {quad quad' : List Char → Char → Prop} (hquad : ∀ {digits ch}, quad digits ch → quad' digits ch)
    {body value : List Char} (h : Decodes quad body value) : Decodes quad' body value := by
  induction h with
  | nil => exact .nil
  | plain h _ ih => exact .plain h ih
  | simple h _ ih => exact .simple h ih
  | unicode h _ ih => exact .unicode (hquad h) ih

/-! ### Digits -/

theorem IsHexDigit.lt {c : Char} {n : Nat} (h : IsHexDigit c n) : n < 16 := by
  rcases h with h | h
  · exact (List.getElem?_eq_some_iff.1 h).1
  · exact (List.getElem?_eq_some_iff.1 h).1

theorem hexDigit?_eq_some_iff {c : Char} {n : Nat} : hexDigit? c = some n ↔ IsHexDigit c n := by
  constructor
  · intro h
    -- the character is the one with its number
    have hofNat : Char.ofNat c.toNat = c := Char.ofNat_toNat c
    unfold hexDigit? at h
    split at h
    · rename_i hrange
      obtain ⟨hlow, hhigh⟩ : 48 ≤ c.toNat ∧ c.toNat ≤ 57 := hrange
      obtain rfl := Option.some.inj h
      generalize c.toNat = k at *
      subst hofNat
      interval_cases k <;> exact .inl rfl
    · split at h
      · rename_i hrange
        obtain ⟨hlow, hhigh⟩ : 97 ≤ c.toNat ∧ c.toNat ≤ 102 := hrange
        obtain rfl := Option.some.inj h
        generalize c.toNat = k at *
        subst hofNat
        interval_cases k <;> exact .inl rfl
      · split at h
        · rename_i hrange
          obtain ⟨hlow, hhigh⟩ : 65 ≤ c.toNat ∧ c.toNat ≤ 70 := hrange
          obtain rfl := Option.some.inj h
          generalize c.toNat = k at *
          subst hofNat
          interval_cases k <;> exact .inr rfl
        · exact absurd h (by simp)
  · intro h
    have hlt := h.lt
    unfold IsHexDigit at h
    interval_cases n <;> rcases h with h | h <;> obtain rfl := Option.some.inj h <;> decide

/-- The number of hexadecimal digits, digit by digit. -/
private theorem hexNumber?_quad {a b c d : Char} {n : Nat} :
    hexNumber? [a, b, c, d] = some n ↔ ∃ x y z w, IsHexDigit a x ∧ IsHexDigit b y ∧ IsHexDigit c z ∧ IsHexDigit d w ∧
      n = 4096 * x + 256 * y + 16 * z + w := by
  unfold hexNumber?
  simp only [List.foldlM_cons, List.foldlM_nil, Option.bind_eq_bind, Option.bind_eq_some_iff, Option.map_eq_some_iff,
    hexDigit?_eq_some_iff, Option.pure_def, Option.some.injEq]
  constructor
  · rintro ⟨_, ⟨x, hx, rfl⟩, _, ⟨y, hy, rfl⟩, _, ⟨z, hz, rfl⟩, _, ⟨w, hw, rfl⟩, rfl⟩
    exact ⟨x, y, z, w, hx, hy, hz, hw, by omega⟩
  · rintro ⟨x, y, z, w, hx, hy, hz, hw, rfl⟩
    exact ⟨_, ⟨x, hx, rfl⟩, _, ⟨y, hy, rfl⟩, _, ⟨z, hz, rfl⟩, _, ⟨w, hw, rfl⟩, by omega⟩

/-- Leading zeros do not count. -/
private theorem hexNumber?_zero (digits : List Char) : hexNumber? ('0' :: digits) = hexNumber? digits := rfl

/-- The character with a number, if there is one. -/
private def numbered? (n : Nat) : Option Char :=
  if h : n.isValidChar then some (Char.ofNatAux n h) else none

private theorem numbered?_eq_some_iff {n : Nat} {ch : Char} : numbered? n = some ch ↔ ch.toNat = n := by
  constructor
  · intro h
    by_cases hvalid : n.isValidChar
    · obtain rfl := Option.some.inj ((dif_pos hvalid).symm.trans h)
      rfl
    · exact absurd ((dif_neg hvalid).symm.trans h) (by simp)
  · rintro rfl
    exact dif_pos ch.valid

theorem unicodeEscape?_eq_some_iff {a b c d ch : Char} :
    unicodeEscape? [a, b, c, d] = some ch ↔ IsNumberedOrSigned [a, b, c, d] ch := by
  have hnumbered : ∀ {a : Char}, (hexNumber? [a, b, c, d]).bind numbered? = some ch ↔ IsNumbered [a, b, c, d] ch := by
    intro a
    simp only [Option.bind_eq_some_iff, hexNumber?_quad, numbered?_eq_some_iff]
    constructor
    · rintro ⟨n, ⟨x, y, z, w, hx, hy, hz, hw, rfl⟩, hch⟩
      exact ⟨hx, hy, hz, hw, hch⟩
    · rintro ⟨hx, hy, hz, hw, hch⟩
      exact ⟨_, ⟨_, _, _, _, hx, hy, hz, hw, rfl⟩, hch⟩
  have hplus : ∀ n, ¬ IsHexDigit '+' n := by
    intro n h
    exact absurd (hexDigit?_eq_some_iff.2 h) (by simp [show hexDigit? '+' = none by decide])
  by_cases ha : a = '+'
  · subst ha
    -- after a plus sign, as after a zero
    have hzero := hnumbered (a := '0')
    rw [hexNumber?_zero] at hzero
    refine hzero.trans ?_
    constructor
    · exact .signed
    · rintro (⟨hx, -, -, -, -⟩ | h)
      · exact absurd hx (hplus _)
      · exact h
  · have hdigits : unicodeEscape? [a, b, c, d] = (hexNumber? [a, b, c, d]).bind numbered? := by
      show (hexNumber? _).bind numbered? = _
      split
      · rename_i heq
        exact absurd (List.cons.inj heq).1 ha
      · rfl
    rw [hdigits, hnumbered]
    constructor
    · exact .digits
    · rintro (h | h)
      · exact h
      · exact absurd rfl ha

/-! ### Bodies -/

theorem simpleEscape?_eq_some_iff {e ch : Char} : simpleEscape? e = some ch ↔ (e, ch) ∈ simpleEscapes := by
  unfold simpleEscape? simpleEscapes
  split <;> simp_all [eq_comm]

/-- The escapes of a body are decoded exactly if it stands for something. -/
theorem unescape?_eq_some_iff {body value : List Char} :
    unescape? body = some value ↔ Decodes IsNumberedOrSigned body value := by
  constructor
  · intro h
    fun_induction unescape? body generalizing value with
    | case1 =>
      obtain rfl := Option.some.inj h
      exact .nil
    | case2 => exact absurd h (by simp)
    | case3 a b c d rest ih =>
      obtain ⟨ch, hch, h⟩ := Option.bind_eq_some_iff.1 h
      obtain ⟨value, hvalue, rfl⟩ := Option.map_eq_some_iff.1 h
      have hquad : IsNumberedOrSigned [a, b, c, d] ch := unicodeEscape?_eq_some_iff.1 hch
      exact .unicode hquad (ih hvalue)
    | case4 e rest _ ih =>
      obtain ⟨ch, hch, h⟩ := Option.bind_eq_some_iff.1 h
      obtain ⟨value, hvalue, rfl⟩ := Option.map_eq_some_iff.1 h
      exact .simple (simpleEscape?_eq_some_iff.1 hch) (ih hvalue)
    | case5 c rest hlast _ hescape ih =>
      obtain ⟨value, hvalue, rfl⟩ := Option.map_eq_some_iff.1 h
      refine .plain ?_ (ih hvalue)
      rintro rfl
      cases rest with
      | nil => exact hlast rfl rfl
      | cons e rest => exact hescape e rest rfl rfl
  · intro h
    induction h with
    | nil => rfl
    | @plain c cs value h _ ih =>
      rw [unescape?, ih]
      · rfl
      all_goals intros; simp_all
    | @simple e ch cs value h _ ih =>
      have hu : e ≠ 'u' := by
        rintro rfl
        simp [simpleEscapes] at h
      rw [unescape?, simpleEscape?_eq_some_iff.2 h, ih]
      · rfl
      · rintro a b c d rest' rfl
        exact absurd rfl hu
    | @unicode digits ch cs value h _ ih =>
      obtain ⟨a, b, c, d, rfl⟩ : ∃ a b c d, digits = [a, b, c, d] := by
        cases h with
        | digits h => cases h with | mk => exact ⟨_, _, _, _, rfl⟩
        | signed => exact ⟨_, _, _, _, rfl⟩
      change unescape? ('\\' :: 'u' :: a :: b :: c :: d :: cs) = _
      rw [unescape?, unicodeEscape?_eq_some_iff.2 h, ih]
      rfl

/-! ### Strings -/

private theorem dropBytes?_quote (cs : List Char) : dropBytes? 1 ('"' :: cs) = some cs := by
  simp [dropBytes?, show '"'.utf8Size = 1 by decide]

theorem inner?_quoted (body : List Char) : inner? 1 ('"' :: body ++ ['"']) = some body := by
  have hbytes : ¬ byteCount ('"' :: (body ++ ['"'])) < 2 * 1 := by
    have hlast : ∀ cs : List Char, 1 ≤ byteCount (cs ++ ['"']) := by
      intro cs
      induction cs with
      | nil => decide
      | cons c cs ih => simp only [byteCount, List.cons_append, List.foldr_cons] at ih ⊢; omega
    have := hlast body
    simp only [byteCount, List.foldr_cons, show '"'.utf8Size = 1 by decide] at this ⊢
    omega
  unfold inner?
  rw [List.cons_append, if_neg hbytes, dropBytes?_quote, Option.bind_some, List.reverse_append]
  simp [dropBytes?_quote]

/-- **How escapes are decoded.**  A quoted string has a value exactly if its body is made of characters that are no
backslash, of escapes of one character, and of an escaped `u` with four hexadecimal digits that are the number of a
character, or with a plus sign and three of them; and its value are these characters in order.  A body in which the digits
are digits throughout is read as it ought to be. -/
theorem decoded_iff (body value : String) :
    (stringValue? ("\"" ++ body ++ "\"") = some value ↔ Decodes IsNumberedOrSigned body.toList value.toList) ∧
    (Decodes IsNumbered body.toList value.toList → stringValue? ("\"" ++ body ++ "\"") = some value) := by
  have hiff : stringValue? ("\"" ++ body ++ "\"") = some value ↔
      Decodes IsNumberedOrSigned body.toList value.toList := by
    have hraw : ("\"" ++ body ++ "\"").toList = '"' :: body.toList ++ ['"'] := by simp
    unfold stringValue?
    rw [hraw, inner?_quoted, Option.bind_some, ← unescape?_eq_some_iff, Option.map_eq_some_iff]
    constructor
    · rintro ⟨cs, hcs, rfl⟩
      rw [hcs, String.toList_ofList]
    · intro h
      exact ⟨value.toList, h, String.ofList_toList⟩
  exact ⟨hiff, fun h => hiff.2 (h.mono .digits)⟩

/-- Characters of one byte and of two, an escaped quote, and a numbered letter. -/
theorem decoded_letters :
    Decodes IsNumbered "a\\\"é\\u0041".toList "a\"éA".toList ∧
      stringValue? ("\"" ++ "a\\\"é\\u0041" ++ "\"") = some "a\"éA" := by
  have hnumbered : IsNumbered ['0', '0', '4', '1'] 'A' :=
    .mk (x := 0) (y := 0) (z := 4) (w := 1) (.inl rfl) (.inl rfl) (.inl rfl) (.inl rfl) rfl
  have hbody : Decodes IsNumbered "a\\\"é\\u0041".toList "a\"éA".toList :=
    .plain (by decide) (.simple (e := '"') (by decide) (.plain (by decide) (.unicode hnumbered .nil)))
  exact ⟨hbody, (decoded_iff _ _).2 hbody⟩

/-- A plus sign is read as a digit, although it is none. -/
theorem signed_escape_read :
    stringValue? "\"\\u+041\"" = some "A" ∧ ¬ ∃ value, Decodes IsNumbered "\\u+041".toList value := by
  constructor
  · have hraw : "\"\\u+041\"".toList = '"' :: "\\u+041".toList ++ ['"'] := by decide
    unfold stringValue?
    rw [hraw, inner?_quoted]
    decide
  · rintro ⟨value, h⟩
    generalize hbody : "\\u+041".toList = body at h
    replace hbody : ['\\', 'u', '+', '0', '4', '1'] = body := hbody
    cases h with
    | nil => exact absurd hbody (by decide)
    | plain h _ => exact h (List.cons.inj hbody).1.symm
    | simple h _ =>
      obtain ⟨rfl, -⟩ := List.cons.inj (List.cons.inj hbody).2
      simp [simpleEscapes] at h
    | unicode h _ =>
      obtain ⟨-, hdigits⟩ := List.cons.inj (List.cons.inj hbody).2
      cases h with
      | mk ha =>
        obtain ⟨rfl, -⟩ := List.cons.inj hdigits
        exact absurd (hexDigit?_eq_some_iff.2 ha) (by simp [show hexDigit? '+' = none by decide])

end StringLiteral

end GraphQL
