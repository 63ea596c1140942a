import GraphQL.Proofs.Document.ByteTokens
import GraphQL.Proofs.Document.Parse

/-!
# Tokens tile a source

The tokens of a source follow each other with nothing but ignored characters and comments between them, each is a token by
the rule of its kind, and errors stand only where no token starts (`Tiles`).

The span of a token can be cut out of the source, unless the source ends in a string that is cut off right after a
backslash (`CutOff`).  Then the last token before the end of the file reaches one byte too far, and the source is not read
at all (`tokenize_tiles`).
-/

namespace GraphQL

open Lexer

/-! ### What stands between tokens -/

/-- Characters that can stand between tokens without a comment. -/
def ignoredCharacters : List Char := [' ', '\t', '\r', '\n', ',', '\ufeff']

/-- Characters that end a line. -/
def lineEnds : List Char := ['\n', '\r']

/-- A text is made of ignored characters and comments, where a comment goes on up to the end of its line or of the source;
`rest` is what follows the text. -/
inductive IsGap (rest : List Char) : List Char → Prop
  | nil : IsGap rest []
  | ignored {c cs} (hc : c ∈ ignoredCharacters) (h : IsGap rest cs) : IsGap rest (c :: cs)
  | comment {body cs} (hbody : ∀ c ∈ body, c ∉ lineEnds) (hend : ∀ c ∈ (cs ++ rest).head?, c ∈ lineEnds)
      (hcs : cs = [] → rest = []) (h : IsGap rest cs) : IsGap rest ('#' :: (body ++ cs))

/-- A token, or an error, starts with the first character. -/
def Opens (cs : List Char) : Prop := ∀ c ∈ cs.head?, c ∉ ignoredCharacters ∧ c ≠ '#'

theorem isIgnored_iff {c : Char} : isIgnored c = true ↔ c ∈ ignoredCharacters := by
  simp [isIgnored, ignoredCharacters, or_assoc]

/-- A comment may hold one character more, if that does not end its line. -/
theorem IsGap.comment_cons {rest gap : List Char} {c : Char} (hc : c ∉ lineEnds) (h : IsGap rest ('#' :: gap)) :
    IsGap rest ('#' :: c :: gap) := by
  cases h with
  | ignored hhash => exact absurd hhash (by decide)
  | @comment body cs hbody hend hcs h =>
    show IsGap rest ('#' :: ((c :: body) ++ cs))
    refine .comment ?_ hend hcs h
    intro d hd
    rcases List.mem_cons.1 hd with rfl | hd
    · exact hc
    · exact hbody d hd

theorem IsGap.comment_end {rest gap : List Char} {c : Char} (hc : c ∈ lineEnds) (h : IsGap rest gap) :
    IsGap rest ('#' :: c :: gap) := by
  have hignored : c ∈ ignoredCharacters := by
    rcases List.mem_cons.1 hc with rfl | hc
    · decide
    · obtain rfl := List.mem_singleton.1 hc
      decide
  show IsGap rest ('#' :: ([] ++ c :: gap))
  refine .comment (by simp) ?_ (by simp) (.ignored hignored h)
  intro d hd
  obtain rfl := Option.some.inj hd
  exact hc

/-- What is dropped is a gap, in a comment the rest of one, and its bytes are counted. -/
theorem dropIgnored_spec (inComment : Bool) (offset : Nat) (cs : List Char) :
    ∃ gap rest, dropIgnored inComment offset cs = (offset + byteCount gap, rest) ∧ cs = gap ++ rest ∧ Opens rest ∧
      IsGap rest (if inComment then '#' :: gap else gap) := by
  fun_induction dropIgnored inComment offset cs with
  | case1 inComment offset =>
    refine ⟨[], [], rfl, rfl, by simp [Opens], ?_⟩
    cases inComment with
    | true =>
      show IsGap [] ('#' :: ([] ++ []))
      exact .comment (by simp) (by simp) (fun _ => rfl) .nil
    | false => exact .nil
  | case2 offset c rest hc ih =>
    obtain ⟨gap, rest, heq, rfl, hopens, hgap⟩ := ih
    refine ⟨c :: gap, rest, ?_, rfl, hopens, .comment_end (by simpa [lineEnds] using hc) hgap⟩
    have hsize : c.utf8Size = 1 := by rcases hc with rfl | rfl <;> rfl
    rw [heq, byteCount_cons, hsize, Nat.add_assoc]
  | case3 offset c rest hc ih =>
    obtain ⟨gap, rest, heq, rfl, hopens, hgap⟩ := ih
    refine ⟨c :: gap, rest, ?_, rfl, hopens, .comment_cons (by simpa [lineEnds] using hc) hgap⟩
    rw [heq, byteCount_cons, Nat.add_assoc]
  | case4 offset rest ih =>
    obtain ⟨gap, rest, heq, rfl, hopens, hgap⟩ := ih
    refine ⟨'#' :: gap, rest, ?_, rfl, hopens, hgap⟩
    rw [heq, byteCount_cons, Nat.add_assoc]
    rfl
  | case5 offset c rest hc hignored ih =>
    obtain ⟨gap, rest, heq, rfl, hopens, hgap⟩ := ih
    refine ⟨c :: gap, rest, ?_, rfl, hopens, .ignored (isIgnored_iff.1 hignored) hgap⟩
    rw [heq, byteCount_cons, Nat.add_assoc]
  | case6 offset c rest hc hignored =>
    refine ⟨[], c :: rest, rfl, rfl, ?_, .nil⟩
    intro d hd
    obtain rfl := Option.some.inj hd
    exact ⟨fun hmem => hignored (isIgnored_iff.2 hmem), hc⟩

/-! ### Tokens one after the other -/

/-- A text is a token of a kind, or an error that stands where no token starts. -/
def IsToken (kind : TokenKind) (text rest : List Char) : Prop :=
  Lexeme kind text rest ∨ kind = .error ∧ ∀ kind' text' rest', Lexeme kind' text' rest' → text' ++ rest' ≠ text ++ rest

/-- The tokens of the characters from an offset on: a gap and then a token, as long as there are characters. -/
inductive Laid : (offset : Nat) → List Char → List Token → Prop
  | stop {offset gap} (hgap : IsGap [] gap) : Laid offset gap [⟨.endOfFile, .empty (offset + byteCount gap), ""⟩]
  | token {offset gap text rest kind tokens} (hgap : IsGap (text ++ rest) gap) (hopens : Opens (text ++ rest))
      (hne : text ≠ []) (htoken : IsToken kind text rest) (hwhole : ¬ Severed (text ++ rest))
      (h : Laid (offset + byteCount gap + byteCount text) rest tokens) :
      Laid offset (gap ++ (text ++ rest))
        (⟨kind, ⟨offset + byteCount gap, offset + byteCount gap + byteCount text⟩, String.ofList text⟩ :: tokens)
  | cut {offset gap text} (hgap : IsGap text gap) (h : Severed text) :
      Laid offset (gap ++ text)
        [⟨.error, ⟨offset + byteCount gap, offset + byteCount gap + byteCount text + 1⟩, String.ofList text⟩,
          ⟨.endOfFile, .empty (offset + byteCount gap + byteCount text + 1), ""⟩]

theorem tokensFrom_nil {fuel : Nat} (offset : Nat) : tokensFrom fuel offset [] = [⟨.endOfFile, .empty offset, ""⟩] := by
  cases fuel <;> rfl

theorem laid_tokensFrom {fuel offset : Nat} {cs : List Char} (hfuel : cs.length < fuel) :
    Laid offset cs (tokensFrom fuel offset cs) := by
  induction fuel generalizing offset cs with
  | zero => omega
  | succ fuel ih =>
    obtain ⟨gap, rest, heq, rfl, hopens, hgap⟩ := dropIgnored_spec false offset cs
    unfold tokensFrom
    rw [heq]
    cases rest with
    | nil =>
      rw [List.append_nil]
      exact .stop hgap
    | cons c rest =>
      have hsound := scan_sound c rest
      have herror := scan_kind_eq_error_iff c rest
      have hcut := scan_overrun_iff c rest
      generalize hscan : scan c rest = s at hsound herror hcut
      obtain ⟨kind, text, after, overrun⟩ := s
      obtain ⟨hparts, hne, hlexeme, hoverrun⟩ := hsound
      dsimp only at hparts hne hlexeme hoverrun herror hcut ⊢
      rw [hscan, hparts]
      rw [hparts] at herror hcut hgap hopens hfuel
      cases overrun with
      | true =>
        obtain ⟨rfl, rfl, hsevered⟩ := hoverrun rfl
        rw [List.append_nil] at hgap ⊢
        simp only [if_true, tokensFrom_nil]
        exact .cut hgap hsevered
      | false =>
        have htoken : IsToken kind text after := by
          by_cases hkind : kind = .error
          · exact .inr ⟨hkind, herror.1 hkind⟩
          · exact .inl (hlexeme hkind)
        have hlength : after.length < fuel := by
          have hpos := List.length_pos_iff.2 hne
          simp only [List.length_append] at hfuel
          omega
        exact .token hgap hopens hne htoken (fun hsevered => Bool.false_ne_true (hcut.2 hsevered)) (ih hlength)

theorem laid_tokenize (source : String) : Laid 0 source.toList (tokenize source) :=
  laid_tokensFrom (Nat.lt_succ_self _)

/-! ### Bytes -/

theorem size_utf8Encode (cs : List Char) : cs.utf8Encode.size = byteCount cs := by
  rw [← Bytes.length_encode]
  exact List.size_toByteArray

theorem byteCount_pos {cs : List Char} (h : cs ≠ []) : 0 < byteCount cs :=
  Nat.lt_of_lt_of_le (List.length_pos_iff.2 h) (length_le_byteCount cs)

/-- The bytes of a source where it has a part. -/
theorem extract_toByteArray {source : String} {before part after : List Char}
    (h : source.toList = before ++ (part ++ after)) :
    source.toByteArray.extract (byteCount before) (byteCount before + byteCount part) = part.utf8Encode := by
  rw [← String.utf8Encode_toList, h, ← List.append_assoc, List.utf8Encode_append, List.utf8Encode_append,
    ByteArray.extract_append, ByteArray.extract_append_eq_right (size_utf8Encode before).symm (by simp [size_utf8Encode])]
  rw [ByteArray.extract_eq_empty_iff.2 (by simp [size_utf8Encode]), ByteArray.append_empty]

theorem isValid_byteCount {source : String} {before after : List Char} (h : source.toList = before ++ after) :
    String.Pos.Raw.IsValid source ⟨byteCount before⟩ := by
  rw [String.Pos.Raw.isValid_iff_exists_append]
  refine ⟨String.ofList before, String.ofList after, ?_, ?_⟩
  · rw [← String.ofList_append, ← h, String.ofList_toList]
  · rw [← size_utf8Encode, ← String.toByteArray_ofList, String.size_toByteArray]
    rfl

theorem byteCount_toList (source : String) : byteCount source.toList = source.utf8ByteSize := by
  rw [← size_utf8Encode, String.utf8Encode_toList, String.size_toByteArray]

/-! ### Tilings -/

/-- The bytes of a source from `start` up to `stop` are a gap. -/
def GapBetween (source : String) (start stop : Nat) : Prop :=
  ∃ gap after, source.toByteArray.extract start stop = gap.utf8Encode ∧
    source.toByteArray.extract stop source.utf8ByteSize = after.utf8Encode ∧ IsGap after gap

/-- The span of a token starts after some characters of a source, and the text of the token follows them. -/
structure Placed (source : String) (t : Token) (before after : List Char) : Prop where
  parts : source.toList = before ++ (t.text.toList ++ after)
  start : t.span.start = byteCount before

/-- Tokens follow each other in a source, with gaps between them. -/
structure Tiles (source : String) (tokens : List Token) : Prop where
  /-- The last token, and no other, is the end of the file. -/
  ended : Ended tokens
  ordered : tokens.Pairwise fun t u => t.span.stop ≤ u.span.start
  nonempty : ∀ t ∈ tokens, t.kind ≠ .endOfFile → t.span.start < t.span.stop
  /-- From the start of the source, and from the stop of every token, there is a gap up to the next token. -/
  gaps : ∀ p ∈ (0 :: tokens.map (·.span.stop)).zip (tokens.map (·.span.start)), GapBetween source p.1 p.2
  /-- Every token is one by the rule of its kind; an error stands where there is neither a token nor a gap. -/
  tokens : ∀ t ∈ tokens, t.kind ≠ .endOfFile → ∃ before after, Placed source t before after ∧
    IsToken t.kind t.text.toList after ∧ Opens (t.text.toList ++ after)

/-- A span can be cut out of a source: both its ends are between two characters, or at the ends of the source. -/
structure Span.FitsIn (s : Span) (source : String) : Prop where
  le : s.start ≤ s.stop
  start : String.Pos.Raw.IsValid source ⟨s.start⟩
  stop : String.Pos.Raw.IsValid source ⟨s.stop⟩

/-- A source ends in a string that is cut off right after a backslash: a token starts there, and is all that is left. -/
def CutOff (source : String) : Prop :=
  ∃ t ∈ tokenize source, ∃ before text, source.toList = before ++ text ∧ t.span.start = byteCount before ∧ Severed text

variable {source : String} {offset : Nat} {before cs : List Char} {tokens : List Token}

/-- No token starts with a string that is cut off after a backslash. -/
theorem isToken_of_severed {text : List Char} (h : Severed text) : IsToken .error text [] := by
  obtain ⟨body, hbody, rfl⟩ := h
  have hoverrun := (scan_sound _ _).overrun ((scan_overrun_iff _ _).2 ⟨body, hbody, rfl⟩)
  refine .inr ⟨rfl, ?_⟩
  rw [List.append_nil]
  exact (scan_kind_eq_error_iff _ _).1 hoverrun.1

theorem opens_of_severed {text : List Char} (h : Severed text) : Opens text := by
  obtain ⟨body, -, rfl⟩ := h
  intro c hc
  obtain rfl := Option.some.inj hc
  decide

theorem IsToken.kind_ne {kind : TokenKind} {text rest : List Char} (h : IsToken kind text rest) : kind ≠ .endOfFile := by
  rcases h with h | ⟨rfl, -⟩
  · cases h <;> nofun
  · nofun

theorem Laid.ended (h : Laid offset cs tokens) : Ended tokens := by
  induction h with
  | stop => exact .last rfl
  | token _ _ _ htoken _ _ ih => exact .cons htoken.kind_ne ih
  | cut => exact .cons nofun (.last rfl)

/-- Tokens start at the offset or later. -/
theorem Laid.le_start (h : Laid offset cs tokens) : ∀ t ∈ tokens, offset ≤ t.span.start := by
  induction h with
  | stop => simp [Span.empty]
  | token _ _ _ _ _ _ ih =>
    intro t ht
    rcases List.mem_cons.1 ht with rfl | ht
    · exact Nat.le_add_right _ _
    · have hle := ih t ht
      omega
  | cut => simp [Span.empty]; omega

theorem Laid.ordered (h : Laid offset cs tokens) : tokens.Pairwise fun t u => t.span.stop ≤ u.span.start := by
  induction h with
  | stop => exact List.pairwise_singleton _ _
  | token _ _ _ _ _ h ih => exact .cons h.le_start ih
  | cut => simp [Span.empty]

theorem Laid.nonempty (h : Laid offset cs tokens) : ∀ t ∈ tokens, t.kind ≠ .endOfFile → t.span.start < t.span.stop := by
  induction h with
  | stop => simp
  | token _ _ hne _ _ _ ih =>
    intro t ht hkind
    rcases List.mem_cons.1 ht with rfl | ht
    · exact Nat.lt_add_of_pos_right (byteCount_pos hne)
    · exact ih t ht hkind
  | cut =>
    intro t ht hkind
    simp only [List.mem_cons, List.not_mem_nil, or_false] at ht
    rcases ht with rfl | rfl
    · exact Nat.lt_succ_of_le (Nat.le_add_right _ _)
    · exact absurd rfl hkind

/-- Where a source goes on after a gap, the gap is between its ends. -/
theorem gapBetween {gap after : List Char} (hsource : source.toList = before ++ (gap ++ after)) (hgap : IsGap after gap) :
    GapBetween source (byteCount before) (byteCount before + byteCount gap) := by
  refine ⟨gap, after, extract_toByteArray hsource, ?_, hgap⟩
  have hafter : source.toList = before ++ gap ++ (after ++ []) := by simpa using hsource
  have hsize : source.utf8ByteSize = byteCount (before ++ gap) + byteCount after := by
    rw [← byteCount_toList, hafter, List.append_nil, byteCount_append]
  rw [hsize, ← byteCount_append]
  exact extract_toByteArray hafter

/-- Beyond a source there is an empty gap. -/
theorem gapBetween_of_le {n : Nat} (h : source.utf8ByteSize ≤ n) : GapBetween source n n := by
  refine ⟨[], [], ?_, ?_, .nil⟩
  · rw [List.utf8Encode_nil, ByteArray.extract_eq_empty_iff]
    exact Nat.min_le_left _ _
  · rw [List.utf8Encode_nil, ByteArray.extract_eq_empty_iff]
    exact (Nat.min_le_left _ _).trans h

theorem Laid.gaps (h : Laid offset cs tokens) (hsource : source.toList = before ++ cs) (hoffset : offset = byteCount before) :
    ∀ p ∈ (offset :: tokens.map (·.span.stop)).zip (tokens.map (·.span.start)), GapBetween source p.1 p.2 := by
  induction h generalizing before with
  | stop hgap =>
    subst hoffset
    simp only [List.map_cons, List.map_nil, List.zip_cons_cons, List.zip_nil_right, List.mem_singleton, forall_eq]
    exact gapBetween (by simpa using hsource) hgap
  | @token offset gap text rest kind tokens hgap hopens hne htoken hwhole h ih =>
    subst hoffset
    have hnext : source.toList = before ++ gap ++ text ++ rest := by simpa using hsource
    have hih := ih hnext (by simp only [byteCount_append])
    simp only [List.map_cons, List.zip_cons_cons]
    intro p hp
    rcases List.mem_cons.1 hp with rfl | hp
    · exact gapBetween hsource hgap
    · exact hih p hp
  | @cut offset gap text hgap h =>
    subst hoffset
    have hsize : source.utf8ByteSize = byteCount before + byteCount gap + byteCount text := by
      rw [← byteCount_toList, hsource, byteCount_append, byteCount_append, Nat.add_assoc]
    simp only [List.map_cons, List.map_nil, List.zip_cons_cons, List.zip_nil_right, List.mem_cons, List.not_mem_nil,
      or_false]
    rintro p (rfl | rfl)
    · exact gapBetween hsource hgap
    · exact gapBetween_of_le (by omega)

theorem Laid.placed (h : Laid offset cs tokens) (hsource : source.toList = before ++ cs)
    (hoffset : offset = byteCount before) :
    ∀ t ∈ tokens, t.kind ≠ .endOfFile → ∃ before after, Placed source t before after ∧
      IsToken t.kind t.text.toList after ∧ Opens (t.text.toList ++ after) := by
  induction h generalizing before with
  | stop hgap => simp
  | @token offset gap text rest kind tokens hgap hopens hne htoken hwhole h ih =>
    subst hoffset
    have hnext : source.toList = before ++ gap ++ text ++ rest := by simpa using hsource
    have hih := ih hnext (by simp only [byteCount_append])
    intro t ht hkind
    rcases List.mem_cons.1 ht with rfl | ht
    · simp only [String.toList_ofList]
      refine ⟨before ++ gap, rest, ⟨?_, ?_⟩, htoken, hopens⟩
      · simpa using hsource
      · exact (byteCount_append _ _).symm
    · exact hih t ht hkind
  | @cut offset gap text hgap h =>
    subst hoffset
    intro t ht hkind
    simp only [List.mem_cons, List.not_mem_nil, or_false] at ht
    rcases ht with rfl | rfl
    · simp only [String.toList_ofList]
      refine ⟨before ++ gap, [], ⟨?_, ?_⟩, isToken_of_severed h, ?_⟩
      · simpa using hsource
      · exact (byteCount_append _ _).symm
      · rw [List.append_nil]
        exact opens_of_severed h
    · exact absurd rfl hkind

/-- The tokens of a source tile it. -/
theorem tiles_tokenize (source : String) : Tiles source (tokenize source) where
  ended := ended_tokenize source
  ordered := (laid_tokenize source).ordered
  nonempty := (laid_tokenize source).nonempty
  gaps := (laid_tokenize source).gaps (List.nil_append _).symm rfl
  tokens := (laid_tokenize source).placed (List.nil_append _).symm rfl

/-! ### Cutting out tokens -/

/-- A token covers its text: its span can be cut out of the source, and holds the bytes of the text. -/
structure Token.Within (t : Token) (source : String) : Prop where
  fits : t.span.FitsIn source
  bytes : source.toByteArray.extract t.span.start t.span.stop = t.text.toByteArray

/-- Where a source has the text of a token, the token covers it. -/
theorem within_of_parts {gap text after : List Char} (kind : TokenKind)
    (hsource : source.toList = before ++ (gap ++ (text ++ after))) :
    Token.Within ⟨kind, ⟨byteCount before + byteCount gap, byteCount before + byteCount gap + byteCount text⟩,
      String.ofList text⟩ source := by
  rw [← List.append_assoc] at hsource
  rw [← byteCount_append]
  constructor
  · constructor
    · exact Nat.le_add_right _ _
    · exact isValid_byteCount hsource
    · dsimp only
      rw [← byteCount_append]
      exact isValid_byteCount (by simpa using hsource)
  · rw [String.toByteArray_ofList]
    exact extract_toByteArray hsource

/-- The last token before the end of the file is an error that is cut off by the end of the source: it reaches one byte too
far, and so the end of the file lies beyond the source.  All tokens in front of it cover their texts. -/
structure EndsCut (source : String) (tokens front : List Token) (t : Token) (before : List Char) : Prop where
  tokens : tokens = front ++ [t, ⟨.endOfFile, .empty (source.utf8ByteSize + 1), ""⟩]
  within : ∀ u ∈ front, u.Within source
  kind : t.kind = .error
  stop : t.span.stop = source.utf8ByteSize + 1
  placed : Placed source t before []
  severed : Severed t.text.toList

/-- Parts of a source with as many bytes are the same. -/
theorem append_inj_of_byteCount {a b x y : List Char} (h : a ++ x = b ++ y) (hcount : byteCount a = byteCount b) :
    a = b ∧ x = y := by
  have hnil : ∀ {c : List Char}, byteCount c = 0 → c = [] := by
    intro c hc
    by_contra hne
    have hpos := byteCount_pos hne
    omega
  rcases List.append_eq_append_iff.1 h with ⟨c, rfl, rfl⟩ | ⟨c, rfl, rfl⟩
  · rw [byteCount_append] at hcount
    obtain rfl := hnil (c := c) (by omega)
    simp
  · rw [byteCount_append] at hcount
    obtain rfl := hnil (c := c) (by omega)
    simp

theorem EndsCut.cons {front : List Token} {t u : Token} (h : EndsCut source tokens front t before) (hu : u.Within source) :
    EndsCut source (u :: tokens) (u :: front) t before where
  tokens := congrArg (u :: ·) h.tokens
  within := List.forall_mem_cons.2 ⟨hu, h.within⟩
  kind := h.kind
  stop := h.stop
  placed := h.placed
  severed := h.severed

/-- Either all tokens cover their texts and none of them starts a string that is cut off after a backslash, or they end with
such a string. -/
theorem Laid.within_or_cut (h : Laid offset cs tokens) (hsource : source.toList = before ++ cs)
    (hoffset : offset = byteCount before) :
    (∀ t ∈ tokens, t.Within source ∧
      ∀ before text, source.toList = before ++ text → t.span.start = byteCount before → ¬ Severed text) ∨
      ∃ front t before, EndsCut source tokens front t before := by
  induction h generalizing before with
  | @stop offset gap hgap =>
    subst hoffset
    have hparts : source.toList = before ++ (gap ++ ([] ++ [])) := by simpa using hsource
    refine .inl fun t ht => ?_
    obtain rfl := List.mem_singleton.1 ht
    refine ⟨within_of_parts _ hparts, ?_⟩
    intro before' text hsource' hstart
    rw [hsource', ← List.append_assoc] at hparts
    obtain ⟨-, rfl⟩ := append_inj_of_byteCount hparts (by rw [byteCount_append]; exact hstart.symm)
    rintro ⟨body, -, hnil⟩
    cases hnil
  | @token offset gap text rest kind tokens hgap hopens hne htoken hwhole h ih =>
    subst hoffset
    have hnext : source.toList = before ++ gap ++ text ++ rest := by simpa using hsource
    have hih := ih hnext (by simp only [byteCount_append])
    have hwithin := within_of_parts kind hsource
    rcases hih with hall | ⟨front, t, before', hends⟩
    · refine .inl fun t ht => ?_
      rcases List.mem_cons.1 ht with rfl | ht
      · refine ⟨hwithin, ?_⟩
        intro before' text' hsource' hstart
        rw [hsource', ← List.append_assoc] at hsource
        obtain ⟨-, rfl⟩ := append_inj_of_byteCount hsource (by rw [byteCount_append]; exact hstart.symm)
        exact hwhole
      · exact hall t ht
    · exact .inr ⟨_, _, _, hends.cons hwithin⟩
  | @cut offset gap text hgap h =>
    subst hoffset
    have hsize : byteCount before + byteCount gap + byteCount text = source.utf8ByteSize := by
      rw [← byteCount_toList, hsource, byteCount_append, byteCount_append, Nat.add_assoc]
    rw [hsize]
    refine .inr ⟨[], _, before ++ gap, rfl, nofun, rfl, rfl, ⟨?_, (byteCount_append _ _).symm⟩, ?_⟩
    · simpa using hsource
    · simpa using h

/-- A token that covers its text does not go beyond it. -/
theorem Token.Within.overruns {t : Token} (h : t.Within source) : t.overruns = false := by
  have hsize : (source.toByteArray.extract t.span.start t.span.stop).size = t.text.utf8ByteSize := by
    rw [h.bytes, String.size_toByteArray]
  have hstart := h.fits.le
  have hstop : t.span.stop ≤ source.utf8ByteSize := h.fits.stop.le_rawEndPos
  rw [ByteArray.size_extract, String.size_toByteArray] at hsize
  exact decide_eq_false (by omega)

/-- A token that is cut off by the end of the source goes beyond its text. -/
theorem EndsCut.overruns {front : List Token} {t : Token} (h : EndsCut source tokens front t before) : t.overruns = true := by
  have hsize : source.utf8ByteSize = t.span.start + t.text.utf8ByteSize := by
    rw [← byteCount_toList, h.placed.parts, List.append_nil, byteCount_append, byteCount_toList, h.placed.start]
  have hstop := h.stop
  exact decide_eq_true (by omega)

theorem parse?_eq_none_iff : Document.parse? source = none ↔ ∃ t ∈ tokenize source, t.overruns = true := by
  unfold Document.parse?
  dsimp only
  split
  · rename_i h
    exact iff_of_true rfl (List.any_eq_true.1 h)
  · rename_i h
    exact iff_of_false nofun fun hany => h (List.any_eq_true.2 hany)

/-- Offsets are numbers of 32 bits. -/
def offsetLimit : Nat := 4294967296

/-- Offsets do not go beyond a source by more than one byte. -/
theorem stop_le (source : String) : ∀ t ∈ tokenize source, t.span.stop ≤ source.utf8ByteSize + 1 := by
  rcases (laid_tokenize source).within_or_cut (List.nil_append _).symm rfl with hall | ⟨front, u, before, hends⟩
  · intro t ht
    exact Nat.le_succ_of_le (hall t ht).1.fits.stop.le_rawEndPos
  · intro t ht
    rw [hends.tokens] at ht
    simp only [List.mem_append, List.mem_cons, List.not_mem_nil, or_false] at ht
    rcases ht with ht | rfl | rfl
    · exact Nat.le_succ_of_le (hends.within t ht).fits.stop.le_rawEndPos
    · exact hends.stop.le
    · exact Nat.le_refl _

/-- The tokens of a source tile it.  They are the ones that are found among its bytes.  If the source is shorter than the
limit by four bytes, their offsets stay below it, and so do those of the three bytes that are looked ahead.

They all cover their texts unless the source ends in a string that is cut off right after a backslash: then the last of them
goes one byte beyond the source, and there is no result of reading it. -/
theorem tokenize_tiles (source : String) :
    Tiles source (tokenize source) ∧
      Bytes.tokenize source = (tokenize source).map (fun t => (t.kind, t.span)) ∧
      (source.utf8ByteSize < offsetLimit - 4 → ∀ t ∈ tokenize source, t.span.stop + 3 < offsetLimit) ∧
      (¬ CutOff source → ∀ t ∈ tokenize source, t.Within source) ∧
      (CutOff source → ∃ front t before, EndsCut source (tokenize source) front t before) ∧
      (Document.parse? source = none ↔ CutOff source) := by
  refine ⟨tiles_tokenize source, Bytes.tokenize_eq source, fun hshort t ht => ?_, ?_⟩
  · have hle := stop_le source t ht
    unfold offsetLimit at hshort ⊢
    omega
  rcases (laid_tokenize source).within_or_cut (List.nil_append _).symm rfl with hall | ⟨front, t, before, hends⟩
  · have hwhole : ¬ CutOff source := by
      rintro ⟨t, ht, before, text, hsource, hstart, hsevered⟩
      exact (hall t ht).2 before text hsource hstart hsevered
    refine ⟨fun _ t ht => (hall t ht).1, fun hcut => absurd hcut hwhole, fun hnone => ?_, fun hcut => absurd hcut hwhole⟩
    obtain ⟨t, ht, hoverruns⟩ := parse?_eq_none_iff.1 hnone
    rw [(hall t ht).1.overruns] at hoverruns
    cases hoverruns
  · have ht : t ∈ tokenize source := by
      rw [hends.tokens]
      simp
    have hcut : CutOff source := ⟨t, ht, before, _, by simpa using hends.placed.parts, hends.placed.start, hends.severed⟩
    exact ⟨fun hwhole => absurd hcut hwhole, fun _ => ⟨front, t, before, hends⟩, fun _ => hcut,
      fun _ => parse?_eq_none_iff.2 ⟨t, ht, hends.overruns⟩⟩

/-- A string with characters of two, three and four bytes, escaped and not, after a byte order mark, is cut off. -/
def severedSource : String := "\ufeff\x7b é(€: \"\\é\\\\😀\\"

/-- The string is cut off right after a backslash: its token goes one byte beyond the source, which is not read. -/
theorem cutOff_severedSource : Document.parse? severedSource = none ∧ CutOff severedSource ∧
    severedSource.utf8ByteSize = 24 ∧ (tokenize severedSource).map (·.span.stop) = [4, 7, 8, 11, 12, 25, 25] := by
  have hnone : (Document.parse? severedSource).isNone = true := by decide +kernel
  obtain ⟨-, -, -, -, -, hcut⟩ := tokenize_tiles severedSource
  have hread := Option.isNone_iff_eq_none.1 hnone
  exact ⟨hread, hcut.1 hread, by decide +kernel, by decide +kernel⟩

end GraphQL
