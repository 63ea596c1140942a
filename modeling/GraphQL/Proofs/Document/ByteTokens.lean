import GraphQL.Proofs.Document.Bytes

/-!
# Tokens among bytes

The scanner of bytes finds tokens of the same kinds, with the same spans, as `tokenize` finds among the characters
(`Bytes.tokenize_eq`): each of its scans stops where the one of characters stops, and no scan stops or jumps within a
character.
-/

namespace GraphQL

open Lexer (isNameStart isNameContinue)

namespace Bytes

variable {c : Char} {b : UInt8} {cs word : List Char} {pos : Nat}

/-! ### What stands between tokens -/

theorem staysInLine_iff : staysInLine c = true ↔ ¬ (c = '\n' ∨ c = '\r') := by
  simp [staysInLine, isLineEnd]

/-- A comment is dropped up to the end of its line. -/
theorem dropIgnored_comment (offset : Nat) (cs : List Char) :
    Lexer.dropIgnored true offset cs =
      Lexer.dropIgnored false (offset + byteCount (cs.takeWhile staysInLine)) (cs.dropWhile staysInLine) := by
  induction cs generalizing offset with
  | nil => rfl
  | cons c cs ih =>
    by_cases hend : c = '\n' ∨ c = '\r'
    · have hnot : ¬ staysInLine c = true := fun hc => staysInLine_iff.1 hc hend
      rw [List.takeWhile_cons_of_neg hnot, List.dropWhile_cons_of_neg hnot]
      rcases hend with rfl | rfl <;> rfl
    · have hc := staysInLine_iff.2 hend
      have hstep : Lexer.dropIgnored true offset (c :: cs) = Lexer.dropIgnored true (offset + c.utf8Size) cs := if_neg hend
      rw [hstep, ih, List.takeWhile_cons_of_pos hc, List.dropWhile_cons_of_pos hc, byteCount_cons, Nat.add_assoc]

theorem isIgnored_eq (c : Char) : Lexer.isIgnored c = (isBlank c || decide (c = '\ufeff')) := rfl

/-- The bytes of a byte order mark are those of the character. -/
theorem isPrefixOf_encode_cons (c : Char) (cs : List Char) :
    byteOrderMark.isPrefixOf (encode (c :: cs)) = decide (c = '\ufeff') := by
  have hmark : byteOrderMark = String.utf8EncodeChar '\ufeff' := by decide
  by_cases hc : c = '\ufeff'
  · rw [decide_eq_true hc, hc, hmark]
    exact List.isPrefixOf_iff_prefix.2 (List.prefix_append ..)
  · rw [decide_eq_false hc]
    by_contra hstarts
    obtain ⟨bs, hbs⟩ := List.isPrefixOf_iff_prefix.1 (eq_true_of_ne_false hstarts)
    -- the bytes are read as either character
    have hdecode : ∀ (d : Char) (bs : List UInt8), (String.utf8EncodeChar d ++ bs).toByteArray.utf8DecodeChar? 0 = some d := by
      intro d bs
      rw [List.toByteArray_append]
      exact ByteArray.utf8DecodeChar?_utf8EncodeChar_append
    have hmarked := hdecode '\ufeff' bs
    rw [← hmark, hbs, encode_cons, hdecode] at hmarked
    exact hc (Option.some.inj hmarked)

/-- What is ignored among the bytes is what is ignored among the characters. -/
theorem skipIgnored_eq (pos : Nat) (cs : List Char) :
    skipIgnored pos (encode cs) = ((Lexer.dropIgnored false pos cs).1, encode (Lexer.dropIgnored false pos cs).2) := by
  induction hlength : cs.length using Nat.strongRecOn generalizing pos cs with
  | _ n ih =>
    subst hlength
    cases cs with
    | nil => rw [encode, List.flatMap_nil, skipIgnored]; rfl
    | cons c cs =>
      have hmark := isPrefixOf_encode_cons c cs
      obtain ⟨b, bs, hbytes⟩ := List.exists_cons_of_ne_nil (String.utf8EncodeChar_ne_nil (c := c))
      have hmem : b ∈ String.utf8EncodeChar c := by simp [hbytes]
      have hsize := String.length_utf8EncodeChar c
      have hblank := narrow_isBlank.char_eq hmem
      have hhash := (narrow_eq (d := '#') (by decide)).char_eq hmem
      rw [encode_cons, hbytes, List.cons_append] at hmark ⊢
      rw [hbytes, List.length_cons] at hsize
      unfold skipIgnored Lexer.dropIgnored
      rw [hblank, hmark, isIgnored_eq]
      by_cases hc : isBlank c = true
      · -- a blank
        have hne : c ≠ '#' := by
          rintro rfl
          exact absurd hc (by decide)
        obtain rfl : bs = [] := by
          obtain ⟨b', -, hbytes'⟩ := narrow_isBlank.utf8EncodeChar_eq hc
          exact (List.cons.inj (hbytes.symm.trans hbytes')).2
        simp only [hc, hne, if_true, if_false, Bool.true_or]
        rw [← hsize]
        exact ih cs.length (Nat.lt_succ_self _) _ _ rfl
      · by_cases hcomment : c = '#'
        · -- a comment, up to the end of its line
          subst hcomment
          obtain rfl : bs = [] := List.eq_nil_of_length_eq_zero (Nat.succ.inj hsize)
          have hb : char b = '#' := by simpa using hhash
          have hin : ∀ c, ∀ b ∈ String.utf8EncodeChar c, staysInLine (char b) = staysInLine c := fun c b hb =>
            congrArg Bool.not (narrow_isLineEnd.char_eq hb)
          obtain ⟨htake, hdrop⟩ := span_encode hin cs
          simp only [hc, hb, if_true, List.nil_append]
          rw [htake, hdrop, length_encode, dropIgnored_comment]
          exact ih _ (Nat.lt_succ_of_le (List.dropWhile_sublist _).length_le) _ _ rfl
        · have hb : char b ≠ '#' := by simpa [hcomment] using hhash
          by_cases hbom : c = '\ufeff'
          · -- a byte order mark
            subst hbom
            simp only [hc, hb, hcomment, if_false, decide_true, if_true, Bool.or_true]
            have htail : (bs ++ encode cs).drop 2 = encode cs := List.drop_left' (Nat.succ.inj hsize)
            rw [htail]
            exact ih cs.length (Nat.lt_succ_self _) _ _ rfl
          · simp only [hc, hb, hcomment, hbom, if_false, decide_false, Bool.false_eq_true, Bool.or_false]
            rw [encode_cons, hbytes]
            rfl

/-! ### Tokens -/

/-- What a scan of characters that starts at an offset comes to among the bytes. -/
def Found.of (start : Nat) (s : Lexer.Scanned) : Found :=
  ⟨s.kind, start + byteCount s.taken + (if s.overrun then 1 else 0), encode s.rest⟩

variable {isFloat : Bool} {start : Nat} {taken rest : List Char}

theorem finishNumber_eq :
    finishNumber isFloat (start + byteCount taken) (encode rest) = .of start (Lexer.finishNumber isFloat taken rest) := by
  have hnext := ((narrow_eq (d := '.') (by decide)).or narrow_isNameStart).nextIs_encode rest
  unfold finishNumber Lexer.finishNumber
  rw [hnext]
  cases rest <;> rfl

/-- Digits among the characters are digits among the bytes. -/
theorem scanDigits_eq (start : Nat) (taken rest : List Char) {go : Nat → List UInt8 → Found}
    (go' : List Char → List Char → Lexer.Scanned)
    (h : ∀ taken rest, go (start + byteCount taken) (encode rest) = .of start (go' taken rest)) :
    scanDigits (start + byteCount taken) (encode rest) go = .of start
      (match rest.span Char.isDigit with
      | (digits, rest) => if digits.isEmpty then ⟨.error, taken, rest, false⟩ else go' (taken ++ digits) rest) := by
  obtain ⟨digits, rest', hspan⟩ : ∃ digits rest', rest.span Char.isDigit = (digits, rest') := ⟨_, _, rfl⟩
  unfold scanDigits
  rw [narrow_isDigit.span_encode, hspan]
  dsimp only
  cases digits with
  | nil => rfl
  | cons d digits =>
    have hsome : (encode (d :: digits)).isEmpty = false := by
      have hle := length_le_byteCount (d :: digits)
      rw [← Bool.not_eq_true, List.isEmpty_iff_length_eq_zero, length_encode]
      exact Nat.ne_of_gt (Nat.lt_of_lt_of_le (Nat.succ_pos _) hle)
    rw [if_neg (by simp [hsome]), if_neg (by simp), length_encode, Nat.add_assoc, ← byteCount_append]
    exact h _ _

theorem byteCount_append_cons (taken ds : List Char) (hd : c.toNat < 128) :
    byteCount (taken ++ c :: ds) = byteCount taken + 1 + byteCount ds := by
  rw [byteCount_append, byteCount_cons, utf8Size_of_ascii hd, Nat.add_assoc]

theorem byteCount_append_singleton (taken : List Char) (hc : c.toNat < 128) : byteCount (taken ++ [c]) = byteCount taken + 1 :=
  byteCount_append_cons taken [] hc

/-- After the sign of an exponent there are digits. -/
private theorem exponentDigits_eq (sign : List Char) (hc : c.toNat < 128) (hsign : isAscii sign = true) :
    scanDigits (start + byteCount taken + (1 + sign.length)) (encode rest) (finishNumber true) = .of start
      (match rest.span Char.isDigit with
      | (digits, rest) =>
        if digits.isEmpty then ⟨.error, taken ++ c :: sign, rest, false⟩
        else Lexer.finishNumber true (taken ++ c :: sign ++ digits) rest) := by
  have hcount := byteCount_append_cons taken sign hc
  rw [byteCount_of_ascii hsign, Nat.add_assoc] at hcount
  rw [Nat.add_assoc, ← hcount]
  exact scanDigits_eq start (taken ++ c :: sign) rest (Lexer.finishNumber true) fun _ _ => finishNumber_eq

theorem scanExponent_eq :
    scanExponent isFloat (start + byteCount taken) (encode rest) = .of start (Lexer.scanExponent isFloat taken rest) := by
  have hexponent := (narrow_eq (d := 'e') (by decide)).or (narrow_eq (d := 'E') (by decide))
  have hsign := (narrow_eq (d := '+') (by decide)).or (narrow_eq (d := '-') (by decide))
  have hnext := hexponent.nextIs_encode rest
  unfold Lexer.scanExponent
  split
  · unfold scanExponent
    rw [hnext]
    exact finishNumber_eq
  · rename_i c r
    split
    · rename_i he
      have htrue : (decide (c = 'e') || decide (c = 'E')) = true := by simpa using he
      have hascii : c.toNat < 128 := by rcases he with rfl | rfl <;> decide
      have hdrop := hexponent.drop_encode htrue r
      have hdrop₂ : (encode (c :: r)).drop 2 = (encode r).drop 1 := by rw [← hdrop, List.drop_drop]
      have hscan : ∀ go : Bool, r.head?.any (fun c => decide (c = '+') || decide (c = '-')) = go →
          scanExponent isFloat (start + byteCount taken) (encode (c :: r)) =
            if go then scanDigits (start + byteCount taken + 2) ((encode r).drop 1) (finishNumber true)
            else scanDigits (start + byteCount taken + 1) (encode r) (finishNumber true) := by
        rintro _ rfl
        unfold scanExponent
        rw [hnext, hdrop, hdrop₂, hsign.nextIs_encode, List.head?_cons, Option.any_some, if_pos htrue]
      dsimp only
      split
      · rw [hscan true rfl, if_pos rfl, hsign.drop_encode rfl]
        exact exponentDigits_eq ['+'] hascii (by decide)
      · rw [hscan true rfl, if_pos rfl, hsign.drop_encode rfl]
        exact exponentDigits_eq ['-'] hascii (by decide)
      · rename_i hplus hminus
        have hnone : r.head?.any (fun c => decide (c = '+') || decide (c = '-')) = false := by
          cases r with
          | nil => rfl
          | cons d r =>
            have hd₁ : d ≠ '+' := fun h => hplus r (h ▸ rfl)
            have hd₂ : d ≠ '-' := fun h => hminus r (h ▸ rfl)
            simp [hd₁, hd₂]
        rw [hscan false hnone, if_neg Bool.false_ne_true]
        exact exponentDigits_eq [] hascii rfl
    · rename_i he
      have hfalse : ¬ (decide (c = 'e') || decide (c = 'E')) = true := by simpa using he
      unfold scanExponent
      rw [hnext, List.head?_cons, Option.any_some, if_neg hfalse]
      exact finishNumber_eq

theorem scanFraction_eq (start : Nat) (taken rest : List Char) :
    scanFraction (start + byteCount taken) (encode rest) = .of start (Lexer.scanFraction taken rest) := by
  unfold Lexer.scanFraction
  split
  · rename_i r
    have hdigits := scanDigits_eq start (taken ++ ['.']) r (Lexer.scanExponent true) fun _ _ => scanExponent_eq
    rw [byteCount_append_singleton taken (by decide), ← Nat.add_assoc] at hdigits
    simp only [List.append_assoc, List.singleton_append] at hdigits
    unfold scanFraction
    rw [nextIs_self (by decide), drop_encode_self (by decide), if_pos rfl]
    exact hdigits
  · rename_i hnodot
    unfold scanFraction
    rw [nextIs_of_ne (by decide) hnodot, if_neg Bool.false_ne_true]
    exact scanExponent_eq

/-- A number after its sign. -/
theorem scanUnsigned_eq (sign : List Char) :
    scanUnsigned (start + byteCount sign) (encode rest) = .of start
      (match rest with
      | '0' :: r =>
        if Lexer.digitFollows r then ⟨.error, sign ++ ['0'], r, false⟩ else Lexer.scanFraction (sign ++ ['0']) r
      | r =>
        match r.span Char.isDigit with
        | (digits, r) => if digits.isEmpty then ⟨.error, sign, r, false⟩ else Lexer.scanFraction (sign ++ digits) r) := by
  have hfollows : ∀ r, nextIs Char.isDigit (encode r) = Lexer.digitFollows r := fun r => by
    rw [narrow_isDigit.nextIs_encode]
    cases r <;> rfl
  split
  · rename_i r
    have hcount := byteCount_append_singleton (c := '0') sign (by decide)
    have hfraction := scanFraction_eq start (sign ++ ['0']) r
    rw [hcount] at hfraction
    unfold scanUnsigned
    rw [nextIs_self (by decide), drop_encode_self (by decide), if_pos rfl, hfollows]
    split
    · rw [Found.of, hcount]
      rfl
    · exact hfraction
  · rename_i hzero
    unfold scanUnsigned
    rw [nextIs_of_ne (by decide) hzero, if_neg Bool.false_ne_true]
    exact scanDigits_eq start sign _ Lexer.scanFraction (scanFraction_eq start)

theorem scanNumber_eq (cs : List Char) : scanNumber start (encode cs) = .of start (Lexer.scanNumber cs) := by
  unfold Lexer.scanNumber
  split
  rename_i sign r heq
  split at heq
  · obtain ⟨rfl, rfl⟩ := Prod.mk.inj heq
    unfold scanNumber
    rw [nextIs_self (by decide), drop_encode_self (by decide), if_pos rfl]
    exact scanUnsigned_eq ['-']
  · rename_i hnone
    obtain ⟨rfl, rfl⟩ := Prod.mk.inj heq
    unfold scanNumber
    rw [nextIs_of_ne (by decide) hnone, if_neg Bool.false_ne_true]
    exact scanUnsigned_eq []

/-! ### Strings -/

/-- A string goes on over bytes beyond ASCII. -/
theorem scanString_append {bs bytes : List UInt8} (h : ∀ b ∈ bs, 128 ≤ (char b).toNat) :
    scanString pos (bs ++ bytes) = scanString (pos + bs.length) bytes := by
  induction bs generalizing pos with
  | nil => rfl
  | cons b bs ih =>
    have hb := h b (List.mem_cons_self ..)
    have hline := narrow_isLineEnd _ hb
    have hquote : char b ≠ '"' := ne_of_wide hb (by decide)
    have hescape : char b ≠ '\\' := ne_of_wide hb (by decide)
    rw [List.cons_append, scanString, hline, if_neg Bool.false_ne_true, if_neg hquote, if_neg hescape,
      ih fun x hx => h x (List.mem_cons_of_mem _ hx), List.length_cons, Nat.add_assoc, Nat.add_comm 1]

/-- All bytes of a character but the first are beyond ASCII. -/
theorem wide_of_mem_tail {bs : List UInt8} (hbytes : String.utf8EncodeChar c = b :: bs) : ∀ x ∈ bs, 128 ≤ (char x).toNat := by
  intro x hx
  rcases utf8EncodeChar_cases c with ⟨-, b', -, hbytes'⟩ | ⟨hc, -⟩
  · obtain ⟨-, rfl⟩ := List.cons.inj (hbytes.symm.trans hbytes')
    cases hx
  · exact wide_of_mem hc (hbytes ▸ List.mem_cons_of_mem _ hx)

theorem byteCount_reverse_cons (c : Char) (taken : List Char) :
    byteCount (c :: taken).reverse = byteCount taken.reverse + c.utf8Size := by
  rw [List.reverse_cons, byteCount_append]
  rfl

/-- The bytes of a string are read like its characters. -/
theorem scanString_cons (c : Char) (rest : List Char) :
    scanString pos (encode (c :: rest)) =
      if isLineEnd c then ⟨.error, pos, encode (c :: rest)⟩
      else if c = '"' then ⟨.string, pos + 1, encode rest⟩
      else if c = '\\' then scanString (pos + 2) ((encode rest).drop 1)
      else scanString (pos + c.utf8Size) (encode rest) := by
  rw [encode_cons]
  rcases utf8EncodeChar_cases c with ⟨hc, b, hb, hbytes⟩ | ⟨hc, b, bs, hbytes, hwide⟩
  · rw [hbytes, List.cons_append, List.nil_append, scanString, hb, utf8Size_of_ascii hc]
  · have hline := narrow_isLineEnd _ hc
    have hquote : c ≠ '"' := ne_of_wide hc (by decide)
    have hescape : c ≠ '\\' := ne_of_wide hc (by decide)
    rw [hline, if_neg Bool.false_ne_true, if_neg hquote, if_neg hescape,
      scanString_append fun x hx => wide_of_mem hc hx, String.length_utf8EncodeChar]

/-- A backslash takes along the character after it: its first byte, and then the others as they are beyond ASCII. -/
theorem scanString_escape (c : Char) (rest : List Char) :
    scanString (pos + 2) ((encode (c :: rest)).drop 1) = scanString (pos + 1 + c.utf8Size) (encode rest) := by
  obtain ⟨b, bs, hbytes⟩ := List.exists_cons_of_ne_nil (String.utf8EncodeChar_ne_nil (c := c))
  have hsize := String.length_utf8EncodeChar c
  rw [hbytes, List.length_cons] at hsize
  rw [encode_cons, hbytes, List.cons_append, List.drop_succ_cons, List.drop_zero,
    scanString_append (wide_of_mem_tail hbytes), ← hsize]
  congr 1
  omega

theorem scanString_eq (taken rest : List Char) :
    scanString (start + byteCount taken.reverse) (encode rest) = .of start (Lexer.scanString taken rest) := by
  fun_induction Lexer.scanString taken rest with
  | case1 taken =>
    rw [encode, List.flatMap_nil, scanString]
    rfl
  | case2 taken =>
    have hcount := byteCount_reverse_cons '\\' taken
    rw [scanString_cons]
    show scanString (_ + 2) [] = _
    rw [scanString, Found.of, hcount]
    rfl
  | case3 taken c rest ih =>
    rw [byteCount_reverse_cons, byteCount_reverse_cons] at ih
    rw [scanString_cons]
    show scanString (_ + 2) ((encode (c :: rest)).drop 1) = _
    rw [scanString_escape, ← ih, Nat.add_assoc, Nat.add_assoc, Nat.add_assoc]
    rfl
  | case4 taken rest hescape =>
    rw [scanString_cons, Found.of, byteCount_reverse_cons, Nat.add_assoc]
    rfl
  | case5 taken c rest hlone hescape hquote hline =>
    have hc : isLineEnd c = true := by simpa [isLineEnd] using hline
    rw [scanString_cons, if_pos hc]
    rfl
  | case6 taken c rest hlone hescape hquote hline ih =>
    have hc : ¬ isLineEnd c = true := by simpa [isLineEnd] using hline
    have hne : c ≠ '\\' := by
      rintro rfl
      cases rest with
      | nil => exact hlone rfl rfl
      | cons d rest => exact hescape d rest rfl rfl
    rw [byteCount_reverse_cons, ← Nat.add_assoc] at ih
    rw [scanString_cons, if_neg hc, if_neg hquote, if_neg hne]
    exact ih

theorem isPrefixOf_of_wide {d : Char} (hc : 128 ≤ c.toNat) (hd : d.toNat < 128) :
    (d :: word).isPrefixOf (c :: cs) = false := by
  rw [List.isPrefixOf_cons_cons, beq_false_of_ne (ne_of_wide hc hd).symm, Bool.false_and]

/-- A block string goes on over bytes beyond ASCII. -/
theorem scanBlockString_append {bs bytes : List UInt8} (h : ∀ b ∈ bs, 128 ≤ (char b).toNat) :
    scanBlockString pos (bs ++ bytes) = scanBlockString (pos + bs.length) bytes := by
  induction bs generalizing pos with
  | nil => rfl
  | cons b bs ih =>
    have hb := h b (List.mem_cons_self ..)
    have hstart : ∀ {d : Char} {word : List Char}, d.toNat < 128 → ¬ startsWith (d :: word) (b :: (bs ++ bytes)) = true :=
      fun hd => Bool.not_eq_true _ ▸ isPrefixOf_of_wide hb hd
    rw [List.cons_append, scanBlockString, if_neg (hstart (by decide)), if_neg (hstart (by decide)),
      ih fun x hx => h x (List.mem_cons_of_mem _ hx), List.length_cons, Nat.add_assoc, Nat.add_comm 1]

/-- The bytes of a block string are read like its characters. -/
theorem scanBlockString_cons (c : Char) (rest : List Char) :
    scanBlockString pos (encode (c :: rest)) =
      if ['"', '"', '"'].isPrefixOf (c :: rest) then ⟨.blockString, pos + 3, (encode (c :: rest)).drop 3⟩
      else if ['\\', '"', '"', '"'].isPrefixOf (c :: rest) then scanBlockString (pos + 4) ((encode (c :: rest)).drop 4)
      else scanBlockString (pos + c.utf8Size) (encode rest) := by
  rcases utf8EncodeChar_cases c with ⟨hc, b, hb, hbytes⟩ | ⟨hc, -⟩
  · rw [← startsWith_encode (by decide), ← startsWith_encode (by decide), encode_cons, hbytes, List.cons_append,
      List.nil_append, scanBlockString, utf8Size_of_ascii hc]
    rfl
  · rw [isPrefixOf_of_wide hc (by decide), isPrefixOf_of_wide hc (by decide), if_neg Bool.false_ne_true,
      if_neg Bool.false_ne_true, encode_cons, scanBlockString_append fun x hx => wide_of_mem hc hx,
      String.length_utf8EncodeChar]

theorem scanBlockString_eq (taken rest : List Char) :
    scanBlockString (start + byteCount taken.reverse) (encode rest) = .of start (Lexer.scanBlockString taken rest) := by
  fun_induction Lexer.scanBlockString taken rest with
  | case1 taken =>
    rw [encode, List.flatMap_nil, scanBlockString]
    rfl
  | case2 taken rest =>
    have hdrop := drop_encode_append ['"', '"', '"'] rest (by decide)
    have hcount : byteCount ('"' :: '"' :: '"' :: taken).reverse = byteCount taken.reverse + 3 := by
      rw [byteCount_reverse_cons, byteCount_reverse_cons, byteCount_reverse_cons]
      rfl
    rw [scanBlockString_cons, if_pos (by simp), Found.of, hcount]
    exact congrArg _ hdrop
  | case3 taken rest ih =>
    have hdrop := drop_encode_append ['\\', '"', '"', '"'] rest (by decide)
    have hcount : byteCount ('"' :: '"' :: '"' :: '\\' :: taken).reverse = byteCount taken.reverse + 4 := by
      rw [byteCount_reverse_cons, byteCount_reverse_cons, byteCount_reverse_cons, byteCount_reverse_cons]
      rfl
    rw [hcount, ← Nat.add_assoc, ← hdrop] at ih
    rw [scanBlockString_cons, if_neg (by simp), if_pos (by simp)]
    exact ih
  | case4 taken c rest hquotes hescape ih =>
    have hnone : ∀ {word : List Char}, (∀ r, c :: rest = word ++ r → False) → ¬ word.isPrefixOf (c :: rest) = true := by
      intro word h hstarts
      obtain ⟨r, hr⟩ := List.isPrefixOf_iff_prefix.1 hstarts
      exact h r hr.symm
    have hquotes' : ¬ ['"', '"', '"'].isPrefixOf (c :: rest) = true := hnone fun r hr =>
      hquotes r (List.cons.inj hr).1 (List.cons.inj hr).2
    have hescape' : ¬ ['\\', '"', '"', '"'].isPrefixOf (c :: rest) = true := hnone fun r hr =>
      hescape r (List.cons.inj hr).1 (List.cons.inj hr).2
    rw [byteCount_reverse_cons, ← Nat.add_assoc] at ih
    rw [scanBlockString_cons, if_neg hquotes', if_neg hescape']
    exact ih

/-! ### The whole source -/

theorem width_encode (c : Char) (cs : List Char) : width (encode (c :: cs)) = c.utf8Size := by
  unfold width
  rw [encode_cons, List.toByteArray_append, ByteArray.utf8DecodeChar?_utf8EncodeChar_append]
  rfl

/-- The characters are scanned by the first of them, and by the word that follows it. -/
theorem lexer_scan_eq (c : Char) (cs : List Char) :
    Lexer.scan c cs =
      match Punctuator.ofChar? c with
      | some p => ⟨.punctuator p, [c], cs, false⟩
      | none =>
        if c = '.' then
          if ['.', '.'].isPrefixOf cs then ⟨.punctuator .spread, ['.', '.', '.'], cs.drop 2, false⟩
          else ⟨.error, [c], cs, false⟩
        else if c = '"' then
          if ['"', '"'].isPrefixOf cs then Lexer.scanBlockString ['"', '"', '"'] (cs.drop 2)
          else Lexer.scanString ['"'] cs
        else if isNameStart c then
          let (more, rest) := cs.span isNameContinue
          ⟨.name, c :: more, rest, false⟩
        else if c = '-' ∨ c.isDigit then Lexer.scanNumber (c :: cs)
        else ⟨.error, [c], cs, false⟩ := by
  have hnot : ∀ d : Char, (∀ r, cs = d :: d :: r → False) → ¬ [d, d].isPrefixOf cs = true := by
    intro d hnone hstarts
    obtain ⟨r, hr⟩ := List.isPrefixOf_iff_prefix.1 hstarts
    exact hnone r hr.symm
  unfold Lexer.scan
  split
  · rename_i p hp
    rw [hp]
  · rename_i hp
    rw [hp]
    simp
  · rename_i hp
    rw [hp]
    simp
  · rename_i hnone hp
    rw [hp]
    simp [hnot _ hnone]
  · rename_i c rest _ _ _ hquote hspread _ hp
    have hdots : c = '.' → ¬ ['.', '.'].isPrefixOf rest = true := fun hc => hnot _ fun r hr => hspread r hc hr
    rw [hp]
    by_cases hc : c = '.'
    · subst hc
      simp [hdots rfl, isNameStart]
    · dsimp only
      rw [if_neg hc, if_neg hquote]

/-- Where the bytes start with a character that opens no token, they are scanned as that character. -/
theorem scan_unknown (start : Nat) {bs : List UInt8} (hbytes : encode (c :: cs) = b :: bs) (hc : Punctuator.ofChar? (char b) = none)
    (hdot : char b ≠ '.') (hquote : char b ≠ '"') (hname : isNameStart (char b) = false)
    (hnumber : ¬ (char b = '-' ∨ (char b).isDigit = true)) :
    scan start b bs = .of start ⟨.error, [c], cs, false⟩ := by
  have hwidth := width_encode c cs
  have hdrop : (encode (c :: cs)).drop c.utf8Size = encode cs := List.drop_left' (String.length_utf8EncodeChar c)
  rw [hbytes] at hwidth hdrop
  unfold scan
  simp only [hc, hdot, hquote, hname, hnumber, if_false, Bool.false_eq_true]
  rw [hwidth, hdrop]
  rfl

theorem byteCount_singleton (hc : c.toNat < 128) : byteCount [c] = 1 := byteCount_of_ascii (isAscii_cons.2 ⟨hc, rfl⟩)

/-- A byte by itself is scanned as its character. -/
private theorem scan_eq_of_ascii (start : Nat) (hc : c.toNat < 128) (h : encode (c :: cs) = b :: encode cs)
    (hb : char b = c) : scan start b (encode cs) = .of start (Lexer.scan c cs) := by
  have hunknown := scan_unknown start h
  have hsingle : ∀ kind, (⟨kind, start + 1, encode cs⟩ : Found) = .of start ⟨kind, [c], cs, false⟩ := fun kind => by
    rw [Found.of, byteCount_singleton hc]
    rfl
  -- a word of two that is taken along
  have hdrop : ∀ {d : Char}, d.toNat < 128 → [d, d].isPrefixOf cs = true → (encode cs).drop 2 = encode (cs.drop 2) := by
    intro d hd hstarts
    obtain ⟨r, rfl⟩ := List.isPrefixOf_iff_prefix.1 hstarts
    exact drop_encode_append [d, d] r (isAscii_cons.2 ⟨hd, isAscii_cons.2 ⟨hd, rfl⟩⟩)
  rw [lexer_scan_eq]
  unfold scan at hunknown ⊢
  rw [hb] at hunknown ⊢
  rw [startsWith_encode (by decide), startsWith_encode (by decide), narrow_isNameContinue.span_encode]
  cases hp : Punctuator.ofChar? c with
  | some p => exact hsingle _
  | none =>
    dsimp only
    split
    · subst_vars
      split
      · rename_i hspread
        rw [hdrop (by decide) hspread]
        rfl
      · exact hsingle _
    · split
      · rename_i hquote
        obtain rfl := hquote
        split
        · rename_i hblock
          rw [hdrop (by decide) hblock]
          exact scanBlockString_eq ['"', '"', '"'] _
        · exact scanString_eq ['"'] _
      · rename_i hdot hquote
        split
        · have hcount : byteCount (c :: (cs.span isNameContinue).1) = 1 + byteCount (cs.span isNameContinue).1 := by
            rw [byteCount_cons, utf8Size_of_ascii hc]
          rw [length_encode, Found.of]
          dsimp only
          rw [hcount, Nat.add_assoc]
          rfl
        · split
          · rw [← h]
            exact scanNumber_eq _
          · rename_i hname hnumber
            rw [hp] at hunknown
            simpa [hdot, hquote, hname, hnumber] using hunknown

/-- A character of several bytes opens no token, and neither does the first of them. -/
private theorem scan_eq_of_wide (start : Nat) {bs : List UInt8} (hc : 128 ≤ c.toNat) (h : encode (c :: cs) = b :: bs)
    (hb : 128 ≤ (char b).toNat) : scan start b bs = .of start (Lexer.scan c cs) := by
  have hnumber : ∀ {d : Char}, 128 ≤ d.toNat → ¬ (d = '-' ∨ d.isDigit = true) := fun hd => by
    rw [narrow_isDigit _ hd]
    exact not_or.2 ⟨ne_of_wide hd (by decide), nofun⟩
  have hunknown := scan_unknown start h (ofChar?_of_wide hb) (ne_of_wide hb (by decide)) (ne_of_wide hb (by decide))
    (narrow_isNameStart _ hb) (hnumber hb)
  have hdot : c ≠ '.' := ne_of_wide hc (by decide)
  have hquote : c ≠ '"' := ne_of_wide hc (by decide)
  rw [hunknown, lexer_scan_eq]
  simp only [ofChar?_of_wide hc, hdot, hquote, narrow_isNameStart _ hc, hnumber hc, if_false, Bool.false_eq_true]

/-- A token among the characters is a token among the bytes. -/
theorem scan_eq (start : Nat) {bs : List UInt8} (h : encode (c :: cs) = b :: bs) :
    scan start b bs = .of start (Lexer.scan c cs) := by
  have hcons := h
  rcases utf8EncodeChar_cases c with ⟨hc, b', hb, hbytes⟩ | ⟨hc, b', bs', hbytes, hwide⟩
  · rw [encode_cons, hbytes, List.cons_append, List.nil_append] at hcons
    obtain ⟨rfl, rfl⟩ := List.cons.inj hcons
    exact scan_eq_of_ascii start hc h hb
  · rw [encode_cons, hbytes] at hcons
    refine scan_eq_of_wide start hc h ?_
    rw [← (List.cons.inj hcons).1]
    exact hwide b' (List.mem_cons_self ..)

theorem length_dropIgnored (inComment : Bool) (offset : Nat) (cs : List Char) :
    (Lexer.dropIgnored inComment offset cs).2.length ≤ cs.length := by
  fun_induction Lexer.dropIgnored inComment offset cs with
  | case1 => exact Nat.le_refl _
  | case2 _ _ _ _ ih => exact Nat.le_succ_of_le ih
  | case3 _ _ _ _ ih => exact Nat.le_succ_of_le ih
  | case4 _ _ ih => exact Nat.le_succ_of_le ih
  | case5 _ _ _ _ _ ih => exact Nat.le_succ_of_le ih
  | case6 => exact Nat.le_refl _

/-- The scan of the bytes finds the tokens of the characters. -/
theorem tokensFrom_eq {fuel fuel' : Nat} (hfuel : cs.length < fuel) (hfuel' : cs.length < fuel') :
    tokensFrom fuel' pos (encode cs) = (Lexer.tokensFrom fuel pos cs).map fun t => (t.kind, t.span) := by
  induction fuel generalizing fuel' pos cs with
  | zero => omega
  | succ fuel ih =>
    cases fuel' with
    | zero => omega
    | succ fuel' =>
      have hle := length_dropIgnored false pos cs
      unfold tokensFrom Lexer.tokensFrom
      rw [skipIgnored_eq]
      generalize Lexer.dropIgnored false pos cs = dropped at hle
      obtain ⟨start, rest⟩ := dropped
      cases rest with
      | nil => rfl
      | cons c rest =>
        obtain ⟨b, bs, hbytes⟩ : ∃ b bs, encode (c :: rest) = b :: bs := by
          refine List.exists_cons_of_ne_nil fun hnil => String.utf8EncodeChar_ne_nil (c := c) ?_
          exact (List.append_eq_nil_iff.1 hnil).1
        have hscan := scan_eq start hbytes
        have hsound := Lexer.scan_sound c rest
        have hshorter : (Lexer.scan c rest).rest.length < (c :: rest).length := by
          have hpos := List.length_pos_iff.2 hsound.ne_nil
          rw [hsound.parts, List.length_append]
          omega
        dsimp only at hle ⊢
        rw [hbytes]
        dsimp only
        rw [hscan, List.map_cons]
        exact congrArg _ (ih (by omega) (by omega))

/-- The bytes of a source are cut into tokens of the same kinds, with the same spans, as its characters. -/
theorem tokenize_eq (source : String) : tokenize source = (GraphQL.tokenize source).map fun t => (t.kind, t.span) := by
  have hlength : source.toList.length ≤ (encode source.toList).length := by
    rw [length_encode]
    exact length_le_byteCount _
  unfold tokenize GraphQL.tokenize
  dsimp only
  rw [toList_toByteArray]
  exact tokensFrom_eq (Nat.lt_succ_self _) (Nat.lt_succ_of_le hlength)

end Bytes

end GraphQL
