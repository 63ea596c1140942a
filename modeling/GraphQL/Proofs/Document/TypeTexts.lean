import GraphQL.Proofs.Document.Tiling
import GraphQL.TypeRef

/-!
# Texts of types

The text of a type is read in two ways: from outside in, where blanks may stand around every part (`TypeRef.read?`), and as
a part of a document, token by token.  Both give back a type that is well formed (`TypeRef.Proper`) from its text, and
`TypeRef.read?` reads nothing else but such texts with blanks in them (`TypeRef.read_texts`).
-/

namespace GraphQL

open Lexer

/-- A letter or an underscore, and then letters, digits and underscores. -/
def IsName (text : String) : Prop :=
  ∃ c cs, text.toList = c :: cs ∧ isNameStart c = true ∧ ∀ d ∈ cs, isNameContinue d = true

/-! ### Blanks -/

namespace Text

variable {c : Char} {cs : List Char}

theorem isBlank_of_isNameContinue (h : isNameContinue c = true) : isBlank c = false := by
  have hnarrow : c.toNat < 128 := by
    by_contra hwide
    rw [Bytes.narrow_isNameContinue c (by omega)] at h
    cases h
  have hofNat : Char.ofNat c.toNat = c := Char.ofNat_toNat c
  by_contra hblank
  simp only [isBlank, Bool.not_eq_false, Bool.or_eq_true, Bool.and_eq_true, decide_eq_true_eq] at hblank
  -- of the first 128 characters only these are blank
  have hcode : c.toNat = 9 ∨ c.toNat = 10 ∨ c.toNat = 11 ∨ c.toNat = 12 ∨ c.toNat = 13 ∨ c.toNat = 32 := by omega
  rcases hcode with hcode | hcode | hcode | hcode | hcode | hcode <;>
  · rw [hcode] at hofNat
    subst hofNat
    exact absurd h (by decide)

theorem trimBlanks_eq_self (h : ∀ c ∈ cs, isBlank c = false) : trimBlanks cs = cs := by
  have hfront : ∀ {l : List Char}, (∀ c ∈ l, isBlank c = false) → l.dropWhile isBlank = l := by
    intro l hl
    cases l with
    | nil => rfl
    | cons c l => simp [hl c List.mem_cons_self]
  unfold trimBlanks
  rw [hfront h, hfront fun c hc => h c (List.mem_reverse.1 hc), List.reverse_reverse]

/-- Trimming takes away blanks only. -/
theorem filter_trimBlanks (cs : List Char) : (trimBlanks cs).filter (!isBlank ·) = cs.filter (!isBlank ·) := by
  have hfront : ∀ l : List Char, (l.dropWhile isBlank).filter (!isBlank ·) = l.filter (!isBlank ·) := by
    intro l
    have hnone : (l.takeWhile isBlank).filter (!isBlank ·) = [] := by
      rw [List.filter_eq_nil_iff]
      exact fun c hc => by simp [List.mem_takeWhile_imp hc]
    conv => rhs; rw [← List.takeWhile_append_dropWhile (p := isBlank) (l := l), List.filter_append, hnone, List.nil_append]
  unfold trimBlanks
  rw [List.filter_reverse, hfront, List.filter_reverse, List.reverse_reverse, hfront]

end Text

open Text

theorem IsName.forall_isNameContinue {name : String} (h : IsName name) : ∀ c ∈ name.toList, isNameContinue c = true := by
  obtain ⟨c, cs, hname, hc, hcs⟩ := h
  rw [hname]
  intro d hd
  rcases List.mem_cons.1 hd with rfl | hd
  · exact isNameContinue_of_isNameStart hc
  · exact hcs d hd

/-! ### From outside in -/

namespace TypeRef

variable {fuel : Nat} {cs : List Char} {t : TypeRef}

/-- Its name is one, and no exclamation mark follows another. -/
def Proper : TypeRef → Prop
  | named name => IsName name
  | list item => item.Proper
  | nonNull type => type.Proper ∧ type.isNonNull = false

theorem isNameText_iff : isNameText cs = true ↔ IsName (String.ofList cs) := by
  unfold IsName
  rw [String.toList_ofList]
  cases cs with
  | nil => simp [isNameText]
  | cons c cs => simp [isNameText, isNameStart, isNameContinue]

/-- What is read by the layer on the outside. -/
theorem readChars?_eq_some (h : readChars? (fuel + 1) cs = some t) :
    (∃ inner front, trimBlanks cs = front ++ ['!'] ∧ readChars? fuel front = some inner ∧ inner.isNonNull = false ∧
      t = nonNull inner) ∨
    (∃ item middle, trimBlanks cs = '[' :: (middle ++ [']']) ∧ readChars? fuel middle = some item ∧ t = list item) ∨
    ∃ name, trimBlanks cs = name.toList ∧ IsName name ∧ t = named name := by
  have hlast : ∀ {l : List Char} {c}, l.getLast? = some c → l = l.dropLast ++ [c] := by
    intro l c hc
    obtain ⟨front, rfl⟩ := List.getLast?_eq_some_iff.1 hc
    rw [List.dropLast_concat]
  unfold readChars? at h
  dsimp only at h
  generalize trimBlanks cs = trimmed at h
  split at h
  · rename_i hbang
    obtain ⟨inner, hinner, h⟩ := Option.bind_eq_some_iff.1 h
    split at h
    · cases h
    · rename_i hnullable
      exact .inl ⟨inner, _, hlast hbang, hinner, by simpa using hnullable, (Option.some.inj h).symm⟩
  · split at h
    · split at h
      · rename_i hclose
        obtain ⟨item, hitem, rfl⟩ := Option.map_eq_some_iff.1 h
        exact .inr (.inl ⟨item, _, congrArg _ (hlast hclose), hitem, rfl⟩)
      · cases h
    · split at h
      · rename_i hname
        refine .inr (.inr ⟨_, String.toList_ofList.symm, isNameText_iff.1 hname, (Option.some.inj h).symm⟩)
      · cases h

/-- What is read is well formed, and its text is what was read without the blanks. -/
theorem proper_of_readChars? (h : readChars? fuel cs = some t) :
    t.Proper ∧ t.text.toList = cs.filter (!isBlank ·) := by
  induction fuel generalizing cs t with
  | zero => cases h
  | succ fuel ih =>
    rw [← filter_trimBlanks cs]
    obtain ⟨inner, front, htrim, hread, hnullable, rfl⟩ | ⟨item, middle, htrim, hread, rfl⟩ | ⟨name, htrim, hname, rfl⟩ :=
      readChars?_eq_some h
    · obtain ⟨hproper, htext⟩ := ih hread
      refine ⟨⟨hproper, hnullable⟩, ?_⟩
      rw [htrim, text, String.toList_append, htext, List.filter_append]
      rfl
    · obtain ⟨hproper, htext⟩ := ih hread
      refine ⟨hproper, ?_⟩
      rw [htrim, text, String.toList_append, String.toList_append, htext, List.filter_cons, List.filter_append]
      rfl
    · refine ⟨hname, ?_⟩
      rw [htrim, text, List.filter_eq_self.2 fun c hc => by simp [isBlank_of_isNameContinue (hname.forall_isNameContinue c hc)]]

theorem Proper.not_isBlank (h : t.Proper) : ∀ c ∈ t.text.toList, isBlank c = false := by
  induction t with
  | named name => exact fun c hc => isBlank_of_isNameContinue (IsName.forall_isNameContinue h c hc)
  | list item ih =>
    have hitem := ih h
    intro c hc
    simp only [text, String.toList_append, List.mem_append] at hc
    rcases hc with (hopen | hc) | hclose
    · obtain rfl : c = '[' := by simpa using hopen
      rfl
    · exact hitem c hc
    · obtain rfl : c = ']' := by simpa using hclose
      rfl
  | nonNull type ih =>
    have htype := ih h.1
    intro c hc
    simp only [text, String.toList_append, List.mem_append] at hc
    rcases hc with hc | hbang
    · exact htype c hc
    · obtain rfl : c = '!' := by simpa using hbang
      rfl

/-- A well-formed type is read from its text. -/
theorem Proper.readChars? (h : t.Proper) (hfuel : t.text.toList.length < fuel) :
    readChars? fuel t.text.toList = some t := by
  induction t generalizing fuel with
  | named name =>
    obtain ⟨fuel, rfl⟩ := Nat.exists_eq_succ_of_ne_zero (Nat.ne_zero_of_lt hfuel)
    have hname : isNameText name.toList = true := by
      rw [isNameText_iff, String.ofList_toList]
      exact h
    have hchars : ∀ c ∈ name.toList, isNameContinue c = true := IsName.forall_isNameContinue h
    have hbang : name.toList.getLast? ≠ some '!' := fun hlast =>
      absurd (hchars '!' (List.mem_of_getLast? hlast)) (by decide)
    unfold TypeRef.readChars?
    rw [trimBlanks_eq_self h.not_isBlank, show (named name).text = name from rfl]
    dsimp only
    rw [if_neg hbang]
    split
    · rename_i rest hopen
      rw [hopen] at hchars
      exact absurd (hchars '[' List.mem_cons_self) (by decide)
    · rw [if_pos hname, String.ofList_toList]
  | list item ih =>
    obtain ⟨fuel, rfl⟩ := Nat.exists_eq_succ_of_ne_zero (Nat.ne_zero_of_lt hfuel)
    have htext : (list item).text.toList = '[' :: (item.text.toList ++ [']']) := by simp [text]
    rw [htext] at hfuel
    have hitem : readChars? fuel item.text.toList = some item := ih h (by simp at hfuel; omega)
    have hclose : ('[' :: (item.text.toList ++ [']'])).getLast? = some ']' := by
      rw [← List.cons_append, List.getLast?_concat]
    unfold TypeRef.readChars?
    rw [trimBlanks_eq_self h.not_isBlank, htext]
    simp [hclose, hitem]
  | nonNull type ih =>
    obtain ⟨fuel, rfl⟩ := Nat.exists_eq_succ_of_ne_zero (Nat.ne_zero_of_lt hfuel)
    have htext : (nonNull type).text.toList = type.text.toList ++ ['!'] := by simp [text]
    rw [htext] at hfuel
    have htype : readChars? fuel type.text.toList = some type := ih h.1 (by simp at hfuel; omega)
    unfold TypeRef.readChars?
    rw [trimBlanks_eq_self h.not_isBlank, htext]
    simp [htype, h.2]

end TypeRef

/-! ### Token by token -/

namespace Lexer

/-- The tokens of characters between which there are no comments and no errors. -/
inductive Lexed : Nat → List Char → List Token → Prop
  | stop {offset} : Lexed offset [] [⟨.endOfFile, .empty offset, ""⟩]
  | ignored {offset c rest tokens} (hc : isIgnored c = true) (h : Lexed (offset + c.utf8Size) rest tokens) :
      Lexed offset (c :: rest) tokens
  | token {offset kind text rest tokens} (hlexeme : Lexeme kind text rest)
      (h : Lexed (offset + byteCount text) rest tokens) :
      Lexed offset (text ++ rest) (⟨kind, ⟨offset, offset + byteCount text⟩, String.ofList text⟩ :: tokens)

variable {c : Char} {cs rest text : List Char} {kind : TokenKind} {offset fuel : Nat} {tokens : List Token}

/-- A token does not start with a character that can stand between tokens. -/
theorem Lexeme.opens (h : Lexeme kind (c :: cs) rest) : isIgnored c = false ∧ c ≠ '#' := by
  obtain ⟨d, ds, hcons, hscan⟩ := h.scan_eq
  obtain ⟨rfl, rfl⟩ := List.cons.inj hcons
  have hkind : (scan c (cs ++ rest)).kind ≠ .error := by
    rw [hscan]
    rintro rfl
    cases h
  constructor
  · by_contra hignored
    have hmem : c ∈ ignoredCharacters := isIgnored_iff.1 (by simpa using hignored)
    simp only [ignoredCharacters, List.mem_cons, List.not_mem_nil, or_false] at hmem
    rcases hmem with rfl | rfl | rfl | rfl | rfl | rfl <;> exact hkind rfl
  · rintro rfl
    exact hkind rfl

theorem tokensFrom_ignored (hc : isIgnored c = true) :
    tokensFrom (fuel + 1) offset (c :: cs) = tokensFrom (fuel + 1) (offset + c.utf8Size) cs := by
  have hhash : c ≠ '#' := by
    rintro rfl
    exact absurd hc (by decide)
  have hdrop : dropIgnored false offset (c :: cs) = dropIgnored false (offset + c.utf8Size) cs := by
    rw [dropIgnored, if_neg hhash, if_pos hc]
  rw [tokensFrom, tokensFrom, hdrop]

theorem Lexeme.tokensFrom_eq (h : Lexeme kind text rest) :
    tokensFrom (fuel + 1) offset (text ++ rest) =
      ⟨kind, ⟨offset, offset + byteCount text⟩, String.ofList text⟩ :: tokensFrom fuel (offset + byteCount text) rest := by
  obtain ⟨c, cs, rfl, hscan⟩ := h.scan_eq
  obtain ⟨hignored, hhash⟩ := h.opens
  have hdrop : dropIgnored false offset (c :: (cs ++ rest)) = (offset, c :: (cs ++ rest)) := by
    rw [dropIgnored, if_neg hhash, if_neg (by simp [hignored])]
  rw [List.cons_append, tokensFrom, hdrop]
  dsimp only
  rw [hscan]
  rfl

theorem Lexed.tokensFrom_eq (h : Lexed offset cs tokens) (hfuel : cs.length < fuel) : tokensFrom fuel offset cs = tokens := by
  induction h generalizing fuel with
  | stop => exact tokensFrom_nil _
  | ignored hc _ ih =>
    obtain ⟨fuel, rfl⟩ := Nat.exists_eq_succ_of_ne_zero (Nat.ne_zero_of_lt hfuel)
    rw [tokensFrom_ignored hc]
    exact ih (Nat.lt_of_succ_lt hfuel)
  | @token offset kind text rest tokens hlexeme _ ih =>
    obtain ⟨fuel, rfl⟩ := Nat.exists_eq_succ_of_ne_zero (Nat.ne_zero_of_lt hfuel)
    obtain ⟨c, cs, rfl, -⟩ := hlexeme.scan_eq
    rw [hlexeme.tokensFrom_eq, ih (by simp at hfuel; omega)]

theorem Lexed.not_overruns (h : Lexed offset cs tokens) : ∀ t ∈ tokens, t.overruns = false := by
  induction h with
  | stop => simp [Token.overruns, Span.empty]
  | ignored _ _ ih => exact ih
  | @token offset kind text _ _ _ _ ih =>
    intro t ht
    rcases List.mem_cons.1 ht with rfl | ht
    · have hsize : (String.ofList text).utf8ByteSize = byteCount text := by
        rw [← byteCount_toList, String.toList_ofList]
      simp [Token.overruns, hsize]
    · exact ih t ht

theorem Lexed.punctuator {p : Punctuator} (hc : Punctuator.ofChar? c = some p)
    (h : Lexed (offset + byteCount [c]) rest tokens) :
    Lexed offset (c :: rest) (⟨.punctuator p, ⟨offset, offset + byteCount [c]⟩, String.ofList [c]⟩ :: tokens) := by
  have hlexeme : Lexeme (.punctuator p) [c] rest := by
    rw [← ofChar?_eq_some hc]
    exact .punctuator
  exact .token hlexeme h

theorem Lexed.name {name : String} (hname : IsName name) (hnext : NotNext isNameContinue rest)
    (h : Lexed (offset + byteCount name.toList) rest tokens) :
    Lexed offset (name.toList ++ rest)
      (⟨.name, ⟨offset, offset + byteCount name.toList⟩, String.ofList name.toList⟩ :: tokens) := by
  refine .token ?_ h
  obtain ⟨c, cs, hchars, hc, hcs⟩ := hname
  rw [hchars]
  exact .name hc hcs hnext

end Lexer

open Grammar

/-- A source whose tokens are valid and spell a document is read as that. -/
theorem Lexer.Lexed.parse?_eq {source : String} {tokens : List Token} {d : Document} (h : Lexed 0 source.toList tokens)
    (hvalid : ∀ t ∈ tokens, t.Valid) (hd : Document.Spelled (LineIndex.ofSource source) tokens d) :
    Document.parse? source = some ⟨d, []⟩ := by
  have htokens : tokenize source = tokens := h.tokensFrom_eq (Nat.lt_succ_self _)
  have hnone : (tokenize source).any Token.overruns = false := by
    rw [htokens, List.any_eq_false]
    exact fun t ht => by simp [h.not_overruns t ht]
  unfold Document.parse?
  dsimp only
  rw [hnone, if_neg Bool.false_ne_true, htokens,
    hd.ofTokens_eq (htokens ▸ ended_tokenize source) (htokens ▸ formed_tokenize source) hvalid]

namespace TypeRef

variable {t : TypeRef} {rest : List Char} {tokens : List Token}

/-- A type of a document has the same text without its spans. -/
theorem text_ofNode (node : TypeNode) : (ofNode node).text = node.text := by
  induction node with
  | named name => rfl
  | list item ih => rw [ofNode, text, ih, TypeNode.text]
  | nonNull type ih => rw [ofNode, text, ih, TypeNode.text]

/-- The first tokens of some, up to others, spell a type. -/
structure SpelledBy (t : TypeRef) (ts : List Token) (node : TypeNode) (tokens : List Token) : Prop where
  spelled : TypeNode.Spelled ts node tokens
  /-- If it is nullable, an exclamation mark may follow it. -/
  core : t.isNonNull = false → TypeNode.CoreSpelled ts node tokens
  ofNode_eq : ofNode node = t
  valid : (∀ token ∈ tokens, token.Valid) → ∀ token ∈ ts, token.Valid

/-- The text of a well-formed type has tokens that spell it, if it does not run into a name. -/
theorem Proper.exists_lexed {offset : Nat} (h : t.Proper) (hnext : NotNext isNameContinue rest)
    (hrest : Lexed (offset + byteCount t.text.toList) rest tokens) :
    ∃ ts node, Lexed offset (t.text.toList ++ rest) ts ∧ t.SpelledBy ts node tokens := by
  induction t generalizing rest offset tokens with
  | named name =>
    refine ⟨_, .named ⟨String.ofList name.toList, ⟨offset, offset + byteCount name.toList⟩⟩, .name h hnext hrest, ?_⟩
    exact
      { spelled := .nullable (.named (.mk rfl))
        core := fun _ => .named (.mk rfl)
        ofNode_eq := congrArg named String.ofList_toList
        valid := fun hvalid => List.forall_mem_cons.2 ⟨Token.valid_of_name rfl, hvalid⟩ }
  | list item ih =>
    have htext : (list item).text.toList = ['['] ++ (item.text.toList ++ [']']) := by simp [text]
    rw [htext, byteCount_append, byteCount_append, ← Nat.add_assoc, ← Nat.add_assoc] at hrest
    have hclosed : Lexed (offset + byteCount ['['] + byteCount item.text.toList) (']' :: rest) _ := .punctuator rfl hrest
    obtain ⟨ts, node, hlexed, hitem⟩ := ih h (notNext_cons.2 rfl) hclosed
    have hcore {bracket : Token} (hbracket : bracket.kind = .punctuator .openBracket) :
        TypeNode.CoreSpelled (bracket :: ts) (.list node) tokens := .list (.mk (.mk hbracket) hitem.spelled (.mk rfl))
    rw [htext, List.append_assoc, List.append_assoc]
    exact ⟨_, .list node, .punctuator rfl hlexed,
      { spelled := .nullable (hcore rfl)
        core := fun _ => hcore rfl
        ofNode_eq := congrArg list hitem.ofNode_eq
        valid := fun hvalid => List.forall_mem_cons.2 ⟨Token.valid_of_punctuator rfl,
          hitem.valid (List.forall_mem_cons.2 ⟨Token.valid_of_punctuator rfl, hvalid⟩)⟩ }⟩
  | nonNull type ih =>
    have htext : (nonNull type).text.toList = type.text.toList ++ ['!'] := by simp [text]
    rw [htext, byteCount_append, ← Nat.add_assoc] at hrest
    have hmarked : Lexed (offset + byteCount type.text.toList) ('!' :: rest) _ := .punctuator rfl hrest
    obtain ⟨ts, node, hlexed, htype⟩ := ih h.1 (notNext_cons.2 rfl) hmarked
    rw [htext, List.append_assoc]
    exact ⟨ts, .nonNull node, hlexed,
      { spelled := .nonNull (htype.core h.2) (.mk rfl)
        core := fun hnullable => absurd hnullable (by simp [isNonNull])
        ofNode_eq := congrArg nonNull htype.ofNode_eq
        valid := fun hvalid => htype.valid (List.forall_mem_cons.2 ⟨Token.valid_of_punctuator rfl, hvalid⟩) }⟩

/-- An operation that declares a variable of a type and selects a field. -/
def declaration (kind : OperationKind) (variableName type field : String) : String :=
  kind.text ++ "($" ++ variableName ++ ": " ++ type ++ ") \x7b " ++ field ++ " \x7d"

theorem isName_text (kind : OperationKind) : IsName kind.text := by
  cases kind <;> exact ⟨_, _, rfl, rfl, List.all_eq_true.1 rfl⟩

/-- A selection of one field is lexed as that, and the end after it. -/
theorem exists_lexed_body {field : String} (hfield : IsName field) (lines : LineIndex) (offset : Nat) :
    ∃ ts set stop, Lexed offset (' ' :: '\x7b' :: ' ' :: (field.toList ++ [' ', '\x7d'])) ts ∧
      SelectionSet.Spelled lines ts set [stop] ∧ stop.kind = .endOfFile ∧ ∀ token ∈ ts, token.Valid := by
  have hlexed : Lexed offset (' ' :: '\x7b' :: ' ' :: (field.toList ++ [' ', '\x7d'])) _ :=
    .ignored rfl (.punctuator rfl (.ignored rfl (.name hfield (notNext_cons.2 rfl) (.ignored rfl (.punctuator rfl .stop)))))
  refine ⟨_, _, _, hlexed, .mk (.mk (.mk rfl) (.cons (.field (.mk rfl) .none .nil .none) .nil) (.mk rfl))
    (List.cons_ne_nil _ _), rfl, ?_⟩
  have hend {t : Token} (h : t.kind = .endOfFile) : t.Valid := ⟨by simp [h], by simp [h], by simp [h]⟩
  simp [Token.valid_of_name, Token.valid_of_punctuator, hend]

/-- A well-formed type is read where a document declares a variable of it. -/
theorem Proper.exists_declared {kind : OperationKind} {variableName field : String} (h : t.Proper)
    (hvariable : IsName variableName) (hfield : IsName field) :
    ∃ r o v, Document.parse? (declaration kind variableName t.text field) = some r ∧ r.diagnostics = [] ∧
      r.document.definitions = [.operation o] ∧ o.kind = kind ∧ o.variableDefs = [v] ∧ v.name.value = variableName ∧
      v.type.text = t.text ∧ ofNode v.type = t := by
  let lines := LineIndex.ofSource (declaration kind variableName t.text field)
  let start := 0 + byteCount kind.text.toList + byteCount ['('] + byteCount ['$'] + byteCount variableName.toList +
    byteCount [':'] + ' '.utf8Size
  obtain ⟨body, set, stop, hbody, hset, hstop, hbodyValid⟩ :=
    exists_lexed_body hfield lines (start + byteCount t.text.toList + byteCount [')'])
  have hclosed : Lexed (start + byteCount t.text.toList) (')' :: _) _ := .punctuator rfl hbody
  obtain ⟨ts, node, hlexed, htype⟩ := h.exists_lexed (notNext_cons.2 rfl) hclosed
  have hsource : (declaration kind variableName t.text field).toList =
      kind.text.toList ++ ('(' :: '$' :: (variableName.toList ++ (':' :: ' ' :: (t.text.toList ++
        (')' :: ' ' :: '\x7b' :: ' ' :: (field.toList ++ [' ', '\x7d'])))))) := by
    simp [declaration]
  obtain ⟨tokens, o, v, span, hlexed, hspelled, hvalid, hkind, hvs, hname, hnode⟩ :
      ∃ tokens o v span, Lexed 0 (declaration kind variableName t.text field).toList tokens ∧
        Document.Spelled lines tokens ⟨[.operation o], span⟩ ∧ (∀ token ∈ tokens, token.Valid) ∧ o.kind = kind ∧
        o.variableDefs = [v] ∧ v.name.value = variableName ∧ v.type = node := by
    rw [hsource]
    refine ⟨_, _, _, _, .name (isName_text kind) (notNext_cons.2 rfl) (.punctuator rfl (.punctuator rfl
        (.name hvariable (notNext_cons.2 rfl) (.punctuator rfl (.ignored rfl hlexed))))),
      .mk (.cons (.operation (.mk rfl String.ofList_toList) .none (.some (.mk (.mk rfl)
          (.cons (.mk (.mk rfl) (.mk rfl) (.mk rfl) htype.spelled .none .nil) .nil) (.mk rfl))) .nil hset)
        .nil) hstop (List.cons_ne_nil _ _), ?_, rfl, rfl, String.ofList_toList, rfl⟩
    have htail : ∀ token ∈ ts, token.Valid :=
      htype.valid (List.forall_mem_cons.2 ⟨Token.valid_of_punctuator rfl, hbodyValid⟩)
    simpa [Token.valid_of_name, Token.valid_of_punctuator] using htail
  exact ⟨_, o, v, hlexed.parse?_eq hvalid hspelled, rfl, rfl, hkind, hvs, hname, by rw [hnode, ← text_ofNode, htype.ofNode_eq],
    by rw [hnode, htype.ofNode_eq]⟩

/-- A well-formed type is read from its text, and so it is where a document declares a variable of it.  Whatever is read is well
formed, and its text is what was read without the blanks. -/
theorem read_texts :
    (∀ t : TypeRef, t.Proper → read? t.text = some t ∧
      ∀ kind variableName field, IsName variableName → IsName field →
        ∃ r o v, Document.parse? (declaration kind variableName t.text field) = some r ∧ r.diagnostics = [] ∧
          r.document.definitions = [.operation o] ∧ o.kind = kind ∧ o.variableDefs = [v] ∧ v.name.value = variableName ∧
          v.type.text = t.text ∧ ofNode v.type = t) ∧
    ∀ source t, read? source = some t → t.Proper ∧ t.text.toList = source.toList.filter (!isBlank ·) :=
  ⟨fun _ h => ⟨h.readChars? (Nat.lt_succ_self _), fun _ _ _ hvariable hfield => h.exists_declared hvariable hfield⟩,
    fun _ _ => proper_of_readChars?⟩

/-- A type with layers of both kinds. -/
def nestedIds : TypeRef := nonNull (list (list (nonNull (named "ID"))))

/-- It is read from its text, in a document and with blanks in it. -/
theorem read_nestedIds :
    (nestedIds.Proper ∧ IsName "ids" ∧ IsName "node") ∧
    (read? "[[ID!]]!" = some nestedIds ∧
      ∃ r o v, Document.parse? "mutation($ids: [[ID!]]!) \x7b node \x7d" = some r ∧ r.diagnostics = [] ∧
        r.document.definitions = [.operation o] ∧ o.kind = .mutation ∧ o.variableDefs = [v] ∧ v.name.value = "ids" ∧
        v.type.text = "[[ID!]]!" ∧ ofNode v.type = nestedIds) ∧
    read? " [ [ID ! ]\t]! " = some nestedIds ∧
      "[[ID!]]!".toList = " [ [ID ! ]\t]! ".toList.filter (!isBlank ·) := by
  have hproper : nestedIds.Proper := ⟨⟨⟨'I', ['D'], rfl, rfl, List.all_eq_true.1 rfl⟩, rfl⟩, rfl⟩
  have hids : IsName "ids" := ⟨'i', ['d', 's'], rfl, rfl, List.all_eq_true.1 rfl⟩
  have hnode : IsName "node" := ⟨'n', ['o', 'd', 'e'], rfl, rfl, List.all_eq_true.1 rfl⟩
  obtain ⟨hread, hdeclared⟩ := read_texts.1 nestedIds hproper
  have hblank : read? " [ [ID ! ]\t]! " = some nestedIds := by decide
  exact ⟨⟨hproper, hids, hnode⟩, ⟨hread, hdeclared .mutation "ids" "node" hids hnode⟩, hblank,
    (read_texts.2 _ nestedIds hblank).2⟩

end TypeRef

end GraphQL
