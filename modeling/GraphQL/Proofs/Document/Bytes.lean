import GraphQL.Proofs.Document.Lexemes

/-!
# Scanning bytes

A source need not be decoded to be cut into tokens.  `Bytes.tokenize` goes over the bytes of its encoding, looks up to three
bytes ahead, and jumps over escapes, spreads, quotes of block strings and byte order marks; only a character that opens no
token is decoded, for its width.

No byte of a character beyond ASCII is one of ASCII.  So a class of characters of ASCII is found among the bytes where it is
found among the characters (`Bytes.Narrow`), and so is a word of ASCII.
-/

namespace GraphQL

open Lexer (isNameStart isNameContinue)

theorem byteCount_cons (c : Char) (cs : List Char) : byteCount (c :: cs) = c.utf8Size + byteCount cs := rfl

theorem byteCount_append (cs ds : List Char) : byteCount (cs ++ ds) = byteCount cs + byteCount ds := by
  induction cs with
  | nil => simp [byteCount]
  | cons c cs ih => rw [List.cons_append, byteCount_cons, byteCount_cons, ih, Nat.add_assoc]

theorem length_le_byteCount (cs : List Char) : cs.length ≤ byteCount cs := by
  induction cs with
  | nil => exact Nat.le_refl _
  | cons c cs ih =>
    have hpos := c.utf8Size_pos
    rw [List.length_cons, byteCount_cons]
    omega

namespace Bytes

/-! ### The scanner -/

/-- A byte, read as the character with that code. -/
def char (b : UInt8) : Char := Char.ofNat b.toNat

/-- What a scan of bytes comes to: a kind, the offset at which it stops, and the bytes from there on. -/
structure Found where
  kind : TokenKind
  stop : Nat
  rest : List UInt8

/-- The next byte, if there is one, is of a class. -/
def nextIs (p : Char → Bool) (bytes : List UInt8) : Bool := bytes.head?.any fun b => p (char b)

/-- The bytes start with those of an ASCII word. -/
def startsWith (word : List Char) (bytes : List UInt8) : Bool := word.isPrefixOf (bytes.map char)

/-- The bytes of the character that the bytes start with, if they start with one. -/
def width (bytes : List UInt8) : Nat := (bytes.toByteArray.utf8DecodeChar? 0).elim 1 Char.utf8Size

def byteOrderMark : List UInt8 := [0xef, 0xbb, 0xbf]

def isLineEnd (c : Char) : Bool := c = '\n' || c = '\r'

/-- A character does not end a line. -/
def staysInLine (c : Char) : Bool := !isLineEnd c

/-- Characters of one byte that can stand between tokens. -/
def isBlank (c : Char) : Bool := c = ' ' || c = '\t' || c = '\r' || c = '\n' || c = ','

/-- Goes on to the next token, over blanks, comments and byte order marks. -/
def skipIgnored (pos : Nat) (bytes : List UInt8) : Nat × List UInt8 :=
  match bytes with
  | [] => (pos, [])
  | b :: rest =>
    if isBlank (char b) then skipIgnored (pos + 1) rest
    else if char b = '#' then
      let inLine := fun b => staysInLine (char b)
      skipIgnored (pos + 1 + (rest.takeWhile inLine).length) (rest.dropWhile inLine)
    else if byteOrderMark.isPrefixOf (b :: rest) then skipIgnored (pos + 3) (rest.drop 2)
    else (pos, b :: rest)
termination_by bytes.length
decreasing_by
  · exact Nat.lt_succ_self _
  · exact Nat.lt_succ_of_le (List.dropWhile_sublist _).length_le
  · exact Nat.lt_succ_of_le (List.drop_sublist ..).length_le

/-- A number must not run into a name or another point. -/
def finishNumber (isFloat : Bool) (pos : Nat) (bytes : List UInt8) : Found :=
  ⟨if nextIs (fun c => c = '.' || isNameStart c) bytes then .error else if isFloat then .float else .int, pos, bytes⟩

/-- Goes over digits, at least one, and on with what comes after them. -/
def scanDigits (pos : Nat) (bytes : List UInt8) (go : Nat → List UInt8 → Found) : Found :=
  let (digits, rest) := bytes.span fun b => (char b).isDigit
  if digits.isEmpty then ⟨.error, pos, rest⟩ else go (pos + digits.length) rest

def scanExponent (isFloat : Bool) (pos : Nat) (bytes : List UInt8) : Found :=
  if nextIs (fun c => c = 'e' || c = 'E') bytes then
    if nextIs (fun c => c = '+' || c = '-') (bytes.drop 1) then scanDigits (pos + 2) (bytes.drop 2) (finishNumber true)
    else scanDigits (pos + 1) (bytes.drop 1) (finishNumber true)
  else finishNumber isFloat pos bytes

def scanFraction (pos : Nat) (bytes : List UInt8) : Found :=
  if nextIs (· = '.') bytes then scanDigits (pos + 1) (bytes.drop 1) (scanExponent true)
  else scanExponent false pos bytes

/-- Scans a number after its sign. -/
def scanUnsigned (pos : Nat) (bytes : List UInt8) : Found :=
  if nextIs (· = '0') bytes then
    if nextIs Char.isDigit (bytes.drop 1) then ⟨.error, pos + 1, bytes.drop 1⟩ else scanFraction (pos + 1) (bytes.drop 1)
  else scanDigits pos bytes scanFraction

def scanNumber (pos : Nat) (bytes : List UInt8) : Found :=
  if nextIs (· = '-') bytes then scanUnsigned (pos + 1) (bytes.drop 1) else scanUnsigned pos bytes

/-- Scans a string after its opening quote.  A backslash takes the byte after it along, if there is one or not. -/
def scanString (pos : Nat) (bytes : List UInt8) : Found :=
  match bytes with
  | [] => ⟨.error, pos, []⟩
  | b :: rest =>
    if isLineEnd (char b) then ⟨.error, pos, b :: rest⟩
    else if char b = '"' then ⟨.string, pos + 1, rest⟩
    else if char b = '\\' then scanString (pos + 2) (rest.drop 1)
    else scanString (pos + 1) rest
termination_by bytes.length
decreasing_by
  · exact Nat.lt_succ_of_le (List.drop_sublist ..).length_le
  · exact Nat.lt_succ_self _

/-- Scans a block string after its three opening quotes. -/
def scanBlockString (pos : Nat) (bytes : List UInt8) : Found :=
  match bytes with
  | [] => ⟨.error, pos, []⟩
  | b :: rest =>
    if startsWith ['"', '"', '"'] (b :: rest) then ⟨.blockString, pos + 3, rest.drop 2⟩
    else if startsWith ['\\', '"', '"', '"'] (b :: rest) then scanBlockString (pos + 4) (rest.drop 3)
    else scanBlockString (pos + 1) rest
termination_by bytes.length
decreasing_by
  · exact Nat.lt_succ_of_le (List.drop_sublist ..).length_le
  · exact Nat.lt_succ_self _

/-- Scans one token at a byte that is not ignored. -/
def scan (pos : Nat) (b : UInt8) (rest : List UInt8) : Found :=
  match Punctuator.ofChar? (char b) with
  | some p => ⟨.punctuator p, pos + 1, rest⟩
  | none =>
    if char b = '.' then
      if startsWith ['.', '.'] rest then ⟨.punctuator .spread, pos + 3, rest.drop 2⟩ else ⟨.error, pos + 1, rest⟩
    else if char b = '"' then
      if startsWith ['"', '"'] rest then scanBlockString (pos + 3) (rest.drop 2) else scanString (pos + 1) rest
    else if isNameStart (char b) then
      let (more, rest) := rest.span fun b => isNameContinue (char b)
      ⟨.name, pos + 1 + more.length, rest⟩
    else if char b = '-' ∨ (char b).isDigit then scanNumber pos (b :: rest)
    else ⟨.error, pos + width (b :: rest), (b :: rest).drop (width (b :: rest))⟩

/-- The kinds and the spans of the tokens from an offset on; `fuel` may be the number of bytes. -/
def tokensFrom : (fuel : Nat) → (pos : Nat) → List UInt8 → List (TokenKind × Span)
  | 0, pos, _ => [(.endOfFile, .empty pos)]
  | fuel + 1, pos, bytes =>
    match skipIgnored pos bytes with
    | (start, []) => [(.endOfFile, .empty start)]
    | (start, b :: rest) =>
      let found := scan start b rest
      (found.kind, ⟨start, found.stop⟩) :: tokensFrom fuel found.stop found.rest

/-- The kinds and the spans of the tokens of a source. -/
def tokenize (source : String) : List (TokenKind × Span) :=
  let bytes := source.toByteArray.data.toList
  tokensFrom (bytes.length + 1) 0 bytes

/-! ### Bytes of characters -/

/-- The bytes of characters. -/
def encode (cs : List Char) : List UInt8 := cs.flatMap String.utf8EncodeChar

variable {c : Char} {b : UInt8} {cs word : List Char} {p : Char → Bool} {pos : Nat}

theorem encode_cons (c : Char) (cs : List Char) : encode (c :: cs) = String.utf8EncodeChar c ++ encode cs := rfl

theorem length_encode (cs : List Char) : (encode cs).length = byteCount cs := by
  induction cs with
  | nil => rfl
  | cons c cs ih => rw [encode_cons, List.length_append, String.length_utf8EncodeChar, ih, byteCount_cons]

theorem toList_toByteArray (source : String) : source.toByteArray.data.toList = encode source.toList := by
  rw [← String.utf8Encode_toList]
  exact List.toList_data_toByteArray

theorem toNat_char (b : UInt8) : (char b).toNat = b.toNat := by
  have hb := b.toNat_lt
  have hchar : char b = Char.ofNatAux b.toNat (.inl (by omega)) := dif_pos _
  rw [hchar]
  rfl

theorem utf8Size_of_ascii (hc : c.toNat < 128) : c.utf8Size = 1 := by
  have hval : c.val.toNat = c.toNat := rfl
  rw [Char.utf8Size_eq_one_iff, UInt32.le_iff_toNat_le, hval]
  exact Nat.le_of_lt_succ hc

/-- A character of ASCII is its byte. -/
theorem utf8EncodeChar_of_ascii (hc : c.toNat < 128) : ∃ b, char b = c ∧ String.utf8EncodeChar c = [b] := by
  refine ⟨c.val.toUInt8, ?_, String.utf8EncodeChar_eq_singleton (utf8Size_of_ascii hc)⟩
  have hval : c.val.toUInt8.toNat = c.toNat := by
    rw [UInt32.toNat_toUInt8]
    exact Nat.mod_eq_of_lt (Nat.lt_trans hc (by decide))
  unfold char
  rw [hval, Char.ofNat_toNat]

/-- All bytes of a character beyond ASCII are beyond ASCII. -/
theorem wide_of_mem (hc : 128 ≤ c.toNat) (hb : b ∈ String.utf8EncodeChar c) : 128 ≤ (char b).toNat := by
  rw [toNat_char]
  have hhigh : ∀ {x mask : UInt8}, 128 ≤ mask.toNat → b = x ||| mask → 128 ≤ b.toNat := by
    rintro x mask hmask rfl
    rw [UInt8.toNat_or]
    exact hmask.trans Nat.right_le_or
  rcases Char.utf8Size_eq c with h | h | h | h
  · have hval : c.val.toNat = c.toNat := rfl
    rw [Char.utf8Size_eq_one_iff, UInt32.le_iff_toNat_le, hval] at h
    exact absurd h (Nat.not_le.2 hc)
  · rw [String.utf8EncodeChar_eq_cons_cons h] at hb
    simp only [List.mem_cons, List.not_mem_nil, or_false] at hb
    rcases hb with hb | hb <;> exact hhigh (by decide) hb
  · rw [String.utf8EncodeChar_eq_cons_cons_cons h] at hb
    simp only [List.mem_cons, List.not_mem_nil, or_false] at hb
    rcases hb with hb | hb | hb <;> exact hhigh (by decide) hb
  · rw [String.utf8EncodeChar_eq_cons_cons_cons_cons h] at hb
    simp only [List.mem_cons, List.not_mem_nil, or_false] at hb
    rcases hb with hb | hb | hb | hb <;> exact hhigh (by decide) hb

/-- The first byte is the first character, or all bytes of the first character are beyond ASCII. -/
theorem utf8EncodeChar_cases (c : Char) :
    (c.toNat < 128 ∧ ∃ b, char b = c ∧ String.utf8EncodeChar c = [b]) ∨
      (128 ≤ c.toNat ∧ ∃ b bs, String.utf8EncodeChar c = b :: bs ∧ ∀ x ∈ b :: bs, 128 ≤ (char x).toNat) := by
  rcases Nat.lt_or_ge c.toNat 128 with hc | hc
  · exact .inl ⟨hc, utf8EncodeChar_of_ascii hc⟩
  · obtain ⟨b, bs, hbytes⟩ := List.exists_cons_of_ne_nil (String.utf8EncodeChar_ne_nil (c := c))
    exact .inr ⟨hc, b, bs, hbytes, fun x hx => wide_of_mem hc (hbytes ▸ hx)⟩

/-! ### Classes of characters -/

/-- No character beyond ASCII is of a class. -/
def Narrow (p : Char → Bool) : Prop := ∀ c, 128 ≤ c.toNat → p c = false

theorem ne_of_wide {d : Char} (hc : 128 ≤ c.toNat) (hd : d.toNat < 128) : c ≠ d := by
  rintro rfl
  omega

theorem narrow_eq {d : Char} (hd : d.toNat < 128) : Narrow fun c => decide (c = d) :=
  fun _ hc => decide_eq_false (ne_of_wide hc hd)

theorem Narrow.or {q : Char → Bool} (hp : Narrow p) (hq : Narrow q) : Narrow fun c => p c || q c :=
  fun c hc => Bool.or_eq_false_iff.2 ⟨hp c hc, hq c hc⟩

theorem not_val_le {d : Char} (hc : 128 ≤ c.toNat) (hd : d.toNat < 128) : ¬ c.val ≤ d.val := fun hle => by
  have hval : c.val.toNat = c.toNat := rfl
  rw [UInt32.le_iff_toNat_le, hval] at hle
  exact absurd (Nat.lt_of_le_of_lt hle hd) (Nat.not_lt.2 hc)

theorem narrow_isDigit : Narrow Char.isDigit := fun c hc => by
  have hnine : ¬ c.val ≤ '9'.val := not_val_le hc (by decide)
  show (decide (c.val ≥ '0'.val) && decide (c.val ≤ '9'.val)) = false
  rw [decide_eq_false hnine, Bool.and_false]

theorem narrow_isAlpha : Narrow Char.isAlpha := fun c hc => by
  have hcapital : ¬ (c.val ≥ 'A'.val ∧ c.val ≤ 'Z'.val) := fun h => not_val_le hc (by decide) h.2
  have hsmall : ¬ c.val ≤ 'z'.val := not_val_le hc (by decide)
  show (decide (c.val ≥ 'A'.val ∧ c.val ≤ 'Z'.val) || (decide (c.val ≥ 'a'.val) && decide (c.val ≤ 'z'.val))) = false
  rw [decide_eq_false hcapital, decide_eq_false hsmall, Bool.and_false]
  rfl

theorem narrow_isNameStart : Narrow isNameStart := narrow_isAlpha.or (narrow_eq (by decide))

theorem narrow_isNameContinue : Narrow isNameContinue := fun c hc => by
  unfold isNameContinue Char.isAlphanum
  rw [narrow_isAlpha c hc, narrow_isDigit c hc, decide_eq_false (ne_of_wide hc (by decide))]
  rfl

theorem narrow_isLineEnd : Narrow isLineEnd := (narrow_eq (by decide)).or (narrow_eq (by decide))

theorem narrow_isBlank : Narrow isBlank :=
  ((((narrow_eq (by decide)).or (narrow_eq (by decide))).or (narrow_eq (by decide))).or (narrow_eq (by decide))).or
    (narrow_eq (by decide))

theorem ofChar?_of_wide (hc : 128 ≤ c.toNat) : Punctuator.ofChar? c = none := by
  unfold Punctuator.ofChar?
  split <;> first | rfl | exact absurd hc (by decide)

/-- A byte of a character is of a class exactly if the character is. -/
theorem Narrow.char_eq (hp : Narrow p) (hb : b ∈ String.utf8EncodeChar c) : p (char b) = p c := by
  rcases utf8EncodeChar_cases c with ⟨-, b', rfl, hbytes⟩ | ⟨hc, b', bs, hbytes, hwide⟩
  · rw [hbytes] at hb
    rw [List.mem_singleton.1 hb]
  · rw [hbytes] at hb
    rw [hp c hc, hp _ (hwide b hb)]

theorem Narrow.nextIs_encode (hp : Narrow p) (cs : List Char) : nextIs p (encode cs) = cs.head?.any p := by
  cases cs with
  | nil => rfl
  | cons c cs =>
    obtain ⟨b, bs, hbytes⟩ := List.exists_cons_of_ne_nil (String.utf8EncodeChar_ne_nil (c := c))
    have hb : b ∈ String.utf8EncodeChar c := by simp [hbytes]
    rw [encode_cons, hbytes]
    exact hp.char_eq hb

/-- A character of a class without characters beyond ASCII is a single byte. -/
theorem Narrow.utf8EncodeChar_eq (hp : Narrow p) (hc : p c = true) : ∃ b, char b = c ∧ String.utf8EncodeChar c = [b] := by
  rcases utf8EncodeChar_cases c with ⟨-, h⟩ | ⟨hwide, -⟩
  · exact h
  · rw [hp c hwide] at hc
    cases hc

theorem Narrow.drop_encode (hp : Narrow p) (hc : p c = true) (cs : List Char) : (encode (c :: cs)).drop 1 = encode cs := by
  obtain ⟨b, -, hbytes⟩ := hp.utf8EncodeChar_eq hc
  rw [encode_cons, hbytes]
  rfl

theorem nextIs_self {d : Char} (hd : d.toNat < 128) (cs : List Char) : nextIs (· = d) (encode (d :: cs)) = true := by
  rw [(narrow_eq hd).nextIs_encode]
  exact decide_eq_true rfl

theorem nextIs_of_ne {d : Char} (hd : d.toNat < 128) (h : ∀ r, cs = d :: r → False) : nextIs (· = d) (encode cs) = false := by
  rw [(narrow_eq hd).nextIs_encode]
  cases cs with
  | nil => rfl
  | cons c r => exact decide_eq_false fun hc => h r (hc ▸ rfl)

theorem drop_encode_self {d : Char} (hd : d.toNat < 128) (cs : List Char) : (encode (d :: cs)).drop 1 = encode cs :=
  (narrow_eq hd).drop_encode (decide_eq_true rfl) cs

/-- Where the bytes of each character are of a class exactly if the character is, the longest part of bytes is the encoding
of the longest part of characters. -/
theorem span_encode {q : UInt8 → Bool} (h : ∀ c, ∀ b ∈ String.utf8EncodeChar c, q b = p c) (cs : List Char) :
    (encode cs).takeWhile q = encode (cs.takeWhile p) ∧ (encode cs).dropWhile q = encode (cs.dropWhile p) := by
  induction cs with
  | nil => exact ⟨rfl, rfl⟩
  | cons c cs ih =>
    rw [encode_cons]
    cases hc : p c with
    | true =>
      have hall : ∀ b ∈ String.utf8EncodeChar c, q b = true := fun b hb => (h c b hb).trans hc
      rw [List.takeWhile_append_of_pos hall, List.dropWhile_append_of_pos hall, ih.1, ih.2, List.takeWhile_cons_of_pos hc,
        List.dropWhile_cons_of_pos hc]
      exact ⟨rfl, rfl⟩
    | false =>
      obtain ⟨b, bs, hbytes⟩ := List.exists_cons_of_ne_nil (String.utf8EncodeChar_ne_nil (c := c))
      have hb : ¬ q b = true := by
        rw [h c b (by simp [hbytes]), hc]
        nofun
      have hnot : ¬ p c = true := by
        rw [hc]
        nofun
      rw [List.takeWhile_cons_of_neg hnot, List.dropWhile_cons_of_neg hnot, encode_cons, hbytes, List.cons_append,
        List.takeWhile_cons_of_neg hb, List.dropWhile_cons_of_neg hb]
      exact ⟨rfl, rfl⟩

theorem Narrow.span_encode (hp : Narrow p) (cs : List Char) :
    (encode cs).span (fun b => p (char b)) = (encode (cs.span p).1, encode (cs.span p).2) := by
  obtain ⟨htake, hdrop⟩ := Bytes.span_encode (q := fun b => p (char b)) (fun _ _ hb => hp.char_eq hb) cs
  rw [List.span_eq_takeWhile_dropWhile, List.span_eq_takeWhile_dropWhile, htake, hdrop]

/-! ### Words -/

/-- All characters of a word are of ASCII. -/
def isAscii (word : List Char) : Bool := word.all fun d => d.toNat < 128

theorem isAscii_cons {d : Char} : isAscii (d :: word) = true ↔ d.toNat < 128 ∧ isAscii word = true := by
  unfold isAscii
  rw [List.all_cons, Bool.and_eq_true, decide_eq_true_iff]

/-- The bytes start with those of an ASCII word exactly if the characters start with it, and it is followed by the bytes of
the characters after it. -/
theorem startsWith_encode (hword : isAscii word = true) (cs : List Char) :
    startsWith word (encode cs) = word.isPrefixOf cs := by
  induction word generalizing cs with
  | nil => rfl
  | cons d word ih =>
    obtain ⟨hd, hword⟩ := isAscii_cons.1 hword
    have hih := ih hword
    unfold startsWith at hih ⊢
    cases cs with
    | nil => rfl
    | cons c cs =>
      rw [encode_cons]
      rcases utf8EncodeChar_cases c with ⟨-, b, rfl, hbytes⟩ | ⟨hc, b, bs, hbytes, hwide⟩
      · rw [hbytes]
        exact congrArg (d == char b && ·) (hih cs)
      · rw [hbytes]
        show (d == char b && _) = (d == c && _)
        have hb : (d == char b) = false := beq_false_of_ne (ne_of_wide (hwide b (List.mem_cons_self ..)) hd).symm
        have hne : (d == c) = false := beq_false_of_ne (ne_of_wide hc hd).symm
        rw [hb, hne]
        rfl

theorem byteCount_of_ascii (hword : isAscii word = true) : byteCount word = word.length := by
  induction word with
  | nil => rfl
  | cons d word ih =>
    obtain ⟨hd, hword⟩ := isAscii_cons.1 hword
    rw [byteCount_cons, utf8Size_of_ascii hd, ih hword, List.length_cons, Nat.add_comm]

theorem drop_encode_append (word cs : List Char) (hword : isAscii word = true) :
    (encode (word ++ cs)).drop word.length = encode cs := by
  have hsplit : encode (word ++ cs) = encode word ++ encode cs := List.flatMap_append
  rw [hsplit, ← byteCount_of_ascii hword, ← length_encode, List.drop_left]

end Bytes

end GraphQL
