import GraphQL.Proofs.Document.Tiling

/-!
# Values of block strings

A block string is read line by line, where a line ends with a line feed, a carriage return, or the pair of both (`Lines`).
The lines after the first lose the least indentation that one of them has (`LeastIndent`), and blank lines at both ends are
left out (`Dedents`).

Nothing but white space is lost that way, and it does not matter how the lines of the block string end
(`blockStringValue_of_token`).
-/

namespace GraphQL

namespace StringLiteral

open Lexer

/-! ### Lines -/

/-- A text without a line end. -/
def OnOneLine (line : List Char) : Prop := ∀ c ∈ line, c ∉ lineEnds

/-- What ends a line before the rest of a text.  A carriage return before a line feed does not end a line alone. -/
inductive LineEnd : List Char → List Char → Prop
  | feed {rest} : LineEnd ['\n'] rest
  | pair {rest} : LineEnd ['\r', '\n'] rest
  | lone {rest} (h : rest.head? ≠ some '\n') : LineEnd ['\r'] rest

/-- A text is made of lines, with an end after each but the last. -/
inductive Lines : List Char → List (List Char) → Prop
  | last {line} (h : OnOneLine line) : Lines line [line]
  | next {line stop rest lines} (h : OnOneLine line) (hstop : LineEnd stop rest) (hrest : Lines rest lines) :
      Lines (line ++ (stop ++ rest)) (line :: lines)

variable {c : Char} {k : Nat} {cs line rest stop first body : List Char} {lines others : List (List Char)}

theorem OnOneLine.tail (h : OnOneLine (c :: line)) : OnOneLine line := fun d hd => h d (List.mem_cons_of_mem c hd)

theorem onOneLine_cons (hc : c ∉ lineEnds) (h : OnOneLine line) : OnOneLine (c :: line) := by
  intro d hd
  rcases List.mem_cons.1 hd with rfl | hd
  · exact hc
  · exact h d hd

theorem Lines.ne_nil (h : Lines cs lines) : lines ≠ [] := by
  cases h <;> simp

theorem Lines.onOneLine (h : Lines cs lines) : ∀ line ∈ lines, OnOneLine line := by
  induction h with
  | last h => simpa using h
  | next h _ _ ih =>
    intro line hline
    rcases List.mem_cons.1 hline with rfl | hline
    · exact h
    · exact ih line hline

/-- The first line may hold one character more, if that does not end it. -/
theorem Lines.cons (hc : c ∉ lineEnds) (h : Lines cs (first :: others)) : Lines (c :: cs) ((c :: first) :: others) := by
  cases h with
  | last h => exact .last (onOneLine_cons hc h)
  | next h hstop hrest => exact List.cons_append ▸ .next (onOneLine_cons hc h) hstop hrest

/-- A text is split into its lines. -/
theorem lines_splitLines (cs : List Char) : Lines cs (splitLines cs) := by
  have hnil : OnOneLine [] := by simp [OnOneLine]
  fun_induction splitLines cs with
  | case1 => exact .last hnil
  | case2 rest ih => exact .next hnil .pair ih
  | case3 rest hpair ih =>
    refine .next hnil (.lone fun hfeed => ?_) ih
    obtain ⟨rest', rfl⟩ := List.head?_eq_some_iff.1 hfeed
    exact hpair rest' rfl
  | case4 rest ih => exact .next hnil .feed ih
  | case5 c rest _ hreturn hfeed hnone ih => exact absurd hnone ih.ne_nil
  | case6 c rest _ hreturn hfeed line lines hlines ih =>
    rw [hlines] at ih
    exact ih.cons (by simpa [lineEnds] using ⟨hfeed, hreturn⟩)

theorem splitLines_line (h : OnOneLine line) (hcs : splitLines cs = first :: others) :
    splitLines (line ++ cs) = (line ++ first) :: others := by
  induction line with
  | nil => exact hcs
  | cons c line ih =>
    have hc : c ≠ '\n' ∧ c ≠ '\r' := by simpa [lineEnds] using h c List.mem_cons_self
    rw [List.cons_append, splitLines, ih h.tail]
    · rfl
    · exact fun _ hreturn => absurd hreturn hc.2
    · exact hc.2
    · exact hc.1

theorem LineEnd.splitLines_eq (h : LineEnd stop rest) : splitLines (stop ++ rest) = [] :: splitLines rest := by
  cases h with
  | feed => rfl
  | pair => rfl
  | lone h =>
    rw [List.singleton_append, splitLines]
    rintro rest' rfl
    exact h rfl

/-- A text is made of lines in one way. -/
theorem Lines.splitLines_eq (h : Lines cs lines) : splitLines cs = lines := by
  induction h with
  | @last line h => simpa using splitLines_line h (rfl : splitLines [] = [[]])
  | @next line _ _ _ h hstop _ ih =>
    rw [splitLines_line h hstop.splitLines_eq, ih, List.append_nil]

/-- The ends that all lines can have. -/
def lineStops : List (List Char) := [['\n'], ['\r'], ['\r', '\n']]

/-- Lines that all have the same end. -/
theorem lines_intercalate (hstop : stop ∈ lineStops) (hne : lines ≠ []) (h : ∀ line ∈ lines, OnOneLine line) :
    Lines (stop.intercalate lines) lines := by
  induction lines with
  | nil => exact absurd rfl hne
  | cons line lines ih =>
    cases lines with
    | nil => simpa using Lines.last (h line List.mem_cons_self)
    | cons next others =>
      have hlines := ih (by simp) fun l hl => h l (List.mem_cons_of_mem _ hl)
      rw [List.intercalate_cons_cons, List.append_assoc]
      refine .next (h line List.mem_cons_self) ?_ hlines
      simp only [lineStops, List.mem_cons, List.not_mem_nil, or_false] at hstop
      rcases hstop with rfl | rfl | rfl
      · exact .feed
      · refine .lone fun hfeed => ?_
        -- what follows starts with the next line, or with its end if that is empty
        cases next with
        | cons c next =>
          have hc := h (c :: next) (by simp) c List.mem_cons_self
          cases others <;> simp_all [List.intercalate_cons_cons, lineEnds]
        | nil => cases others <;> simp_all [List.intercalate_cons_cons]
      · exact .pair

private theorem mem_intercalate (h : c ∈ stop.intercalate lines) : c ∈ stop ∨ ∃ line ∈ lines, c ∈ line := by
  induction lines with
  | nil => simp at h
  | cons line lines ih =>
    cases lines with
    | nil => exact .inr ⟨line, List.mem_cons_self, by simpa using h⟩
    | cons next others =>
      rw [List.intercalate_cons_cons, List.append_assoc, List.mem_append, List.mem_append] at h
      rcases h with hline | hstop | hothers
      · exact .inr ⟨line, List.mem_cons_self, hline⟩
      · exact .inl hstop
      · obtain hstop | ⟨other, hother, hc⟩ := ih hothers
        · exact .inl hstop
        · exact .inr ⟨other, List.mem_cons_of_mem _ hother, hc⟩

/-! ### Escaped quotes -/

/-- Where a text starts does not depend on what comes after a character that does not occur in the start. -/
private theorem isPrefix_append_cons {start xs ys : List Char} (hc : c ∉ start) :
    start <+: xs ++ c :: ys ↔ start <+: xs := by
  constructor
  · intro h
    rcases Nat.lt_or_ge xs.length start.length with hlt | hge
    · have hshort : xs ++ [c] <+: start :=
        List.prefix_of_prefix_length_le (by simp) h (by simpa using Nat.succ_le_of_lt hlt)
      exact absurd (hshort.subset (by simp)) hc
    · exact List.prefix_of_prefix_length_le h (List.prefix_append _ _) hge
  · exact fun h => h.trans (List.prefix_append _ _)

theorem unescapeTripleQuotes_cons (h : ¬ '\\' :: tripleQuote <+: c :: cs) :
    unescapeTripleQuotes (c :: cs) = c :: unescapeTripleQuotes cs := by
  rw [unescapeTripleQuotes]
  rintro rest rfl rfl
  exact h ⟨rest, rfl⟩

theorem not_mem_escape (hc : c ∈ lineEnds) : c ∉ '\\' :: tripleQuote := by
  simp only [lineEnds, List.mem_cons, List.not_mem_nil, or_false] at hc
  rcases hc with rfl | rfl <;> decide

theorem unescapeTripleQuotes_lineEnd (hc : c ∈ lineEnds) (cs : List Char) :
    unescapeTripleQuotes (c :: cs) = c :: unescapeTripleQuotes cs := by
  refine unescapeTripleQuotes_cons fun h => not_mem_escape hc ?_
  obtain ⟨rest, hrest⟩ := h
  rw [(List.cons.inj hrest).1]
  exact List.mem_cons_self

/-- An escape does not go beyond a line end. -/
theorem unescapeTripleQuotes_append (hc : c ∈ lineEnds) (line rest : List Char) :
    unescapeTripleQuotes (line ++ c :: rest) = unescapeTripleQuotes line ++ c :: unescapeTripleQuotes rest := by
  fun_induction unescapeTripleQuotes line with
  | case1 line ih =>
    show '"' :: '"' :: '"' :: unescapeTripleQuotes (line ++ c :: rest) = _
    rw [ih]
    rfl
  | case2 d line hplain ih =>
    have hescape : ¬ '\\' :: tripleQuote <+: d :: line := by
      rintro ⟨after, hafter⟩
      obtain ⟨hd, htail⟩ := List.cons.inj hafter
      exact hplain after hd.symm htail.symm
    rw [List.cons_append, unescapeTripleQuotes_cons, ih]
    · rfl
    · rw [← List.cons_append, isPrefix_append_cons (not_mem_escape hc)]
      exact hescape
  | case3 => exact unescapeTripleQuotes_lineEnd hc rest

theorem unescapeTripleQuotes_sublist (cs : List Char) : (unescapeTripleQuotes cs).Sublist cs := by
  fun_induction unescapeTripleQuotes cs with
  | case1 rest ih => exact .cons _ (((ih.cons_cons _).cons_cons _).cons_cons _)
  | case2 c rest _ ih => exact ih.cons_cons _
  | case3 => exact .slnil

theorem LineEnd.unescape (h : LineEnd stop rest) : LineEnd stop (unescapeTripleQuotes rest) := by
  cases h with
  | feed => exact .feed
  | pair => exact .pair
  | lone h =>
    refine .lone ?_
    fun_cases unescapeTripleQuotes rest with
    | case1 => simp
    | case2 c rest => simpa using h
    | case3 => simp

theorem LineEnd.unescape_append (h : LineEnd stop rest) (line : List Char) :
    unescapeTripleQuotes (line ++ (stop ++ rest)) = unescapeTripleQuotes line ++ (stop ++ unescapeTripleQuotes rest) := by
  cases h with
  | feed => exact unescapeTripleQuotes_append (by decide) line rest
  | lone => exact unescapeTripleQuotes_append (by decide) line rest
  | pair =>
    refine (unescapeTripleQuotes_append (by decide) line ('\n' :: rest)).trans ?_
    rw [unescapeTripleQuotes_lineEnd (by decide)]
    rfl

/-- Escapes are replaced line by line. -/
theorem Lines.unescape (h : Lines cs lines) : Lines (unescapeTripleQuotes cs) (lines.map unescapeTripleQuotes) := by
  have hline : ∀ {line}, OnOneLine line → OnOneLine (unescapeTripleQuotes line) := fun h c hc =>
    h c ((unescapeTripleQuotes_sublist _).subset hc)
  induction h with
  | last h => exact .last (hline h)
  | next h hstop _ ih =>
    rw [hstop.unescape_append]
    exact .next (hline h) hstop.unescape ih

/-! ### Indentation -/

/-- The spaces and tabs at the front of a line. -/
def indentation (line : List Char) : List Char := line.takeWhile isIndentChar

/-- The least indentation of the lines that are not blank; zero if all are blank. -/
structure LeastIndent (lines : List (List Char)) (k : Nat) : Prop where
  le : ∀ line ∈ lines, isBlankLine line = false → k ≤ (indentation line).length
  attained : (∃ line ∈ lines, isBlankLine line = false ∧ (indentation line).length = k) ∨
    k = 0 ∧ ∀ line ∈ lines, isBlankLine line = true

theorem utf8Size_of_isIndentChar (hc : isIndentChar c = true) : c.utf8Size = 1 := by
  simp only [isIndentChar, Bool.or_eq_true, decide_eq_true_eq] at hc
  rcases hc with rfl | rfl <;> rfl

/-- Spaces and tabs have one byte each. -/
theorem indentOf_eq (line : List Char) : indentOf line = (indentation line).length := by
  unfold indentOf indentation
  induction line with
  | nil => rfl
  | cons c line ih =>
    rw [List.takeWhile_cons]
    split
    · rename_i hc
      rw [byteCount_cons, utf8Size_of_isIndentChar hc, ih, List.length_cons, Nat.add_comm]
    · rfl

theorem leastIndent_commonIndent (lines : List (List Char)) : LeastIndent lines (commonIndent lines) := by
  have hmem : ∀ {n}, n ∈ (lines.filter (!isBlankLine ·)).map indentOf ↔
      ∃ line ∈ lines, isBlankLine line = false ∧ (indentation line).length = n := by
    intro n
    simp [indentOf_eq, and_assoc]
  unfold commonIndent
  cases hleast : ((lines.filter (!isBlankLine ·)).map indentOf).min? with
  | none =>
    have hblank : ∀ line ∈ lines, isBlankLine line = true := by
      simpa using List.min?_eq_none_iff.1 hleast
    exact ⟨fun line hline hsolid => absurd (hblank line hline) (by simp [hsolid]), .inr ⟨rfl, hblank⟩⟩
  | some n =>
    obtain ⟨hn, hle⟩ := List.min?_eq_some_iff.1 hleast
    exact ⟨fun line hline hsolid => hle _ (hmem.2 ⟨line, hline, hsolid, rfl⟩), .inl (hmem.1 hn)⟩

/-- At most the indentation is taken off a line that is not blank. -/
theorem LeastIndent.isIndentChar_of_mem_take (h : LeastIndent others k) (hline : line ∈ others) :
    ∀ c ∈ line.take k, isIndentChar c = true := by
  intro c hc
  cases hblank : isBlankLine line with
  | true => exact List.all_eq_true.1 hblank c (List.mem_of_mem_take hc)
  | false =>
    have hprefix : indentation line <+: line := List.takeWhile_prefix _
    have htake : line.take k = (indentation line).take k := by
      rw [List.prefix_iff_eq_take.1 hprefix, List.take_take, Nat.min_eq_left (h.le line hline hblank)]
    rw [htake] at hc
    exact List.mem_takeWhile_imp (List.mem_of_mem_take hc)

/-- Bytes are dropped as characters if these are spaces and tabs. -/
theorem dropIndent_eq (h : ∀ c ∈ line.take k, isIndentChar c = true) : dropIndent k line = line.drop k := by
  unfold dropIndent
  induction k generalizing line with
  | zero => simp [dropBytes?]
  | succ k ih =>
    cases line with
    | nil => simp [dropBytes?]
    | cons c line =>
      have hc := utf8Size_of_isIndentChar (h c (by simp))
      rw [dropBytes?, hc, if_pos (Nat.le_add_left 1 k), Nat.add_sub_cancel, List.drop_succ_cons]
      exact ih fun d hd => h d (by simp [hd])

theorem LeastIndent.dedent_eq (h : LeastIndent others (commonIndent others)) (first : List Char) :
    dedent (first :: others) = first :: others.map (List.drop (commonIndent others)) := by
  refine congrArg (first :: ·) (List.map_congr_left fun line hline => ?_)
  exact dropIndent_eq (h.isIndentChar_of_mem_take hline)

/-! ### Blank lines -/

theorem isBlankLine_append (xs ys : List Char) : isBlankLine (xs ++ ys) = (isBlankLine xs && isBlankLine ys) :=
  List.all_append

theorem isBlankLine_drop (h : ∀ c ∈ line.take k, isIndentChar c = true) : isBlankLine (line.drop k) = isBlankLine line := by
  have htake : isBlankLine (line.take k) = true := List.all_eq_true.2 h
  conv => rhs; rw [← List.take_append_drop k line, isBlankLine_append, htake, Bool.true_and]

/-- Blank lines before and after what is kept are left out. -/
theorem exists_trimBlankLines (lines : List (List Char)) :
    ∃ before after, lines = before ++ (trimBlankLines lines ++ after) ∧
      (∀ line ∈ before ++ after, isBlankLine line = true) ∧
      (∀ line ∈ (trimBlankLines lines).head?, isBlankLine line = false) ∧
      ∀ line ∈ (trimBlankLines lines).getLast?, isBlankLine line = false := by
  have hnot : ∀ (l : List (List Char)), ∀ line ∈ (l.dropWhile isBlankLine).head?, isBlankLine line = false := by
    intro l line hline
    have h := List.head?_dropWhile_not isBlankLine l
    rwa [Option.mem_def.1 hline] at h
  obtain ⟨middle, hmiddle⟩ : ∃ middle, lines.dropWhile isBlankLine = middle := ⟨_, rfl⟩
  have hkept : trimBlankLines lines = (middle.reverse.dropWhile isBlankLine).reverse := by
    rw [← hmiddle]
    rfl
  have hparts : trimBlankLines lines ++ (middle.reverse.takeWhile isBlankLine).reverse = middle := by
    rw [hkept, ← List.reverse_append, List.takeWhile_append_dropWhile, List.reverse_reverse]
  refine ⟨lines.takeWhile isBlankLine, (middle.reverse.takeWhile isBlankLine).reverse, ?_, ?_, ?_, ?_⟩
  · rw [hparts, ← hmiddle, List.takeWhile_append_dropWhile]
  · intro line hline
    rcases List.mem_append.1 hline with hline | hline
    · exact List.mem_takeWhile_imp hline
    · exact List.mem_takeWhile_imp (List.mem_reverse.1 hline)
  · intro line hline
    refine hnot lines line ?_
    obtain ⟨others, hothers⟩ := List.head?_eq_some_iff.1 (Option.mem_def.1 hline)
    rw [hmiddle, ← hparts, hothers]
    rfl
  · intro line hline
    refine hnot middle.reverse line ?_
    rwa [hkept, List.getLast?_reverse] at hline

/-! ### What is kept -/

/-- Neither a space or tab nor a line end. -/
def isSolid (c : Char) : Bool := !isIndentChar c && !lineEnds.contains c

theorem filter_isSolid_of_blank (h : ∀ c ∈ cs, isIndentChar c = true) : cs.filter isSolid = [] := by
  rw [List.filter_eq_nil_iff]
  intro c hc
  simp [isSolid, h c hc]

theorem filter_isSolid_stop (h : ∀ c ∈ stop, c ∈ lineEnds) : stop.filter isSolid = [] := by
  rw [List.filter_eq_nil_iff]
  intro c hc
  simp [isSolid, h c hc]

theorem LineEnd.subset (h : LineEnd stop rest) : ∀ c ∈ stop, c ∈ lineEnds := by
  cases h <;> simp [lineEnds]

/-- The solid characters of a text are those of its lines. -/
theorem Lines.filter_isSolid (h : Lines cs lines) : cs.filter isSolid = lines.flatMap (List.filter isSolid) := by
  induction h with
  | last => simp
  | next _ hstop _ ih => simp [filter_isSolid_stop hstop.subset, ih]

theorem filter_isSolid_drop (h : ∀ c ∈ line.take k, isIndentChar c = true) :
    (line.drop k).filter isSolid = line.filter isSolid := by
  conv => rhs; rw [← List.take_append_drop k line, List.filter_append, filter_isSolid_of_blank h, List.nil_append]

/-- How the lines of a block string with a body are read: those after the first lose their least indentation, and then
blank lines at both ends are left out. -/
structure Dedents (body : List Char) (k : Nat) (first : List Char) (others kept : List (List Char)) : Prop where
  /-- Escaped triple quotes are replaced first. -/
  lines : Lines (unescapeTripleQuotes body) (first :: others)
  indent : LeastIndent others k
  /-- Nothing but white space is taken off, and a line that is shorter becomes empty. -/
  white : ∀ line ∈ others, (∀ c ∈ line.take k, isIndentChar c = true) ∧ (line.length < k → line.drop k = [])
  /-- A line is blank afterwards exactly if it was before. -/
  blank : ∀ line ∈ others, isBlankLine (line.drop k) = isBlankLine line
  /-- The lines from the first to the last that is not blank are kept. -/
  kept : ∃ before after, first :: others.map (List.drop k) = before ++ (kept ++ after) ∧
    (∀ line ∈ before ++ after, isBlankLine line = true) ∧
    (∀ line ∈ kept.head?, isBlankLine line = false) ∧ ∀ line ∈ kept.getLast?, isBlankLine line = false

/-- The lines that are kept of a body. -/
def keptLines (body : List Char) : List (List Char) := trimBlankLines (dedent (splitLines (unescapeTripleQuotes body)))

theorem dedents_keptLines (body : List Char) : ∃ k first others, Dedents body k first others (keptLines body) := by
  have hlines := lines_splitLines (unescapeTripleQuotes body)
  obtain ⟨first, others, hsplit⟩ := List.exists_cons_of_ne_nil hlines.ne_nil
  have hindent := leastIndent_commonIndent others
  refine ⟨commonIndent others, first, others, hsplit ▸ hlines, hindent, fun line hline => ?_, fun line hline => ?_, ?_⟩
  · exact ⟨hindent.isIndentChar_of_mem_take hline, fun hshort => List.drop_eq_nil_of_le (Nat.le_of_lt hshort)⟩
  · exact isBlankLine_drop (hindent.isIndentChar_of_mem_take hline)
  · rw [keptLines, hsplit, hindent.dedent_eq]
    exact exists_trimBlankLines _

namespace Dedents

variable {kept : List (List Char)}

theorem onOneLine (h : Dedents body k first others kept) : ∀ line ∈ kept, OnOneLine line := by
  intro line hline
  have hsource := h.lines.onOneLine
  obtain ⟨before, after, hparts, -⟩ := h.kept
  have hmem : line ∈ first :: others.map (List.drop k) := by
    rw [hparts]
    simp [hline]
  rcases List.mem_cons.1 hmem with rfl | hmem
  · exact hsource _ List.mem_cons_self
  · obtain ⟨source, hothers, rfl⟩ := List.mem_map.1 hmem
    exact fun c hc => hsource source (List.mem_cons_of_mem _ hothers) c (List.mem_of_mem_drop hc)

/-- The solid characters of the body are all kept, in their order. -/
theorem filter_isSolid (h : Dedents body k first others kept) :
    (List.intercalate ['\n'] kept).filter isSolid = (unescapeTripleQuotes body).filter isSolid := by
  have hvalue : (List.intercalate ['\n'] kept).filter isSolid = kept.flatMap (List.filter isSolid) := by
    cases kept with
    | nil => rfl
    | cons line lines =>
      have hlines : Lines (List.intercalate ['\n'] (line :: lines)) (line :: lines) :=
        lines_intercalate (by decide) (by simp) h.onOneLine
      exact hlines.filter_isSolid
  obtain ⟨before, after, hparts, hblank, -⟩ := h.kept
  have hnone : ∀ {lines : List (List Char)}, lines ⊆ before ++ after → lines.flatMap (List.filter isSolid) = [] := by
    intro lines hlines
    rw [List.flatMap_eq_nil_iff]
    exact fun line hline => filter_isSolid_of_blank (List.all_eq_true.1 (hblank line (hlines hline)))
  have hothers : (others.flatMap fun line => (line.drop k).filter isSolid) = others.flatMap (List.filter isSolid) := by
    rw [List.flatMap_def, List.flatMap_def]
    exact congrArg _ (List.map_congr_left fun line hline => filter_isSolid_drop (h.white line hline).1)
  calc (List.intercalate ['\n'] kept).filter isSolid
      = kept.flatMap (List.filter isSolid) := hvalue
    _ = (before ++ (kept ++ after)).flatMap (List.filter isSolid) := by
        rw [List.flatMap_append, List.flatMap_append, hnone (List.subset_append_left _ _),
          hnone (List.subset_append_right _ _), List.nil_append, List.append_nil]
    _ = (first :: others.map (List.drop k)).flatMap (List.filter isSolid) := by rw [hparts]
    _ = (first :: others).flatMap (List.filter isSolid) := by
        rw [List.flatMap_cons, List.flatMap_cons, List.flatMap_map, hothers]
    _ = (unescapeTripleQuotes body).filter isSolid := h.lines.filter_isSolid.symm

/-- Lines keep their indentation relative to each other. -/
theorem length_indentation_drop (h : Dedents body k first others kept) (hline : line ∈ others)
    (hsolid : isBlankLine line = false) : (indentation (line.drop k)).length + k = (indentation line).length := by
  have hsplit : indentation line = line.take k ++ indentation (line.drop k) := by
    unfold indentation
    conv => lhs; rw [← List.take_append_drop k line]
    exact List.takeWhile_append_of_pos (h.white line hline).1
  have hle : k ≤ line.length := by
    have hshort : (indentation line).length ≤ line.length := (List.takeWhile_prefix _).length_le
    have := h.indent.le line hline hsolid
    omega
  rw [hsplit, List.length_append, List.length_take, Nat.min_eq_left hle, Nat.add_comm]

end Dedents

/-! ### Tokens -/

/-- A block string ends with three quotes. -/
theorem exists_body {tail : List Char} (h : IsBlock tail) : ∃ body, tail = body ++ tripleQuote := by
  induction h with
  | close => exact ⟨[], rfl⟩
  | escape _ ih =>
    obtain ⟨body, rfl⟩ := ih
    exact ⟨'\\' :: (tripleQuote ++ body), by simp⟩
  | @plain c _ _ _ _ ih =>
    obtain ⟨body, rfl⟩ := ih
    exact ⟨c :: body, rfl⟩

theorem inner?_tripleQuoted (body : List Char) : inner? 3 (tripleQuote ++ (body ++ tripleQuote)) = some body := by
  have hquote : ('"' : Char).utf8Size = 1 := rfl
  have hdrop : ∀ r : List Char, dropBytes? 3 ('"' :: '"' :: '"' :: r) = some r := by
    intro r
    simp [dropBytes?, hquote]
  have hbytes : ¬ byteCount (tripleQuote ++ (body ++ tripleQuote)) < 2 * 3 := by
    simp only [byteCount_append, show byteCount tripleQuote = 3 by decide]
    omega
  unfold inner?
  rw [if_neg hbytes]
  show (dropBytes? 3 ('"' :: '"' :: '"' :: (body ++ tripleQuote))).bind _ = _
  rw [hdrop, Option.bind_some, List.reverse_append]
  show (dropBytes? 3 ('"' :: '"' :: '"' :: body.reverse)).map List.reverse = _
  rw [hdrop, Option.map_some, List.reverse_reverse]

/-- The text of a block string with a body. -/
def blockText (body : List Char) : String := String.ofList (tripleQuote ++ (body ++ tripleQuote))

theorem blockStringValue_blockText (body : List Char) :
    blockStringValue (blockText body) = String.ofList (List.intercalate ['\n'] (keptLines body)) := by
  unfold blockStringValue blockText
  rw [String.toList_ofList, inner?_tripleQuoted]
  rfl

/-- What lines are kept does not depend on how they end. -/
theorem Lines.keptLines_eq (h : Lines body lines) :
    keptLines body = trimBlankLines (dedent (lines.map unescapeTripleQuotes)) := by
  rw [keptLines, h.unescape.splitLines_eq]

theorem isBlock_cons (hc : c ∈ lineEnds) (h : IsBlock cs) : IsBlock (c :: cs) := by
  have hnot : ∀ d start, d ∈ '\\' :: tripleQuote → ¬ d :: start <+: c :: cs := by
    rintro d start hd ⟨rest, hrest⟩
    obtain rfl := (List.cons.inj hrest).1
    exact not_mem_escape hc hd
  exact .plain (hnot _ _ (by decide)) (hnot _ _ (by decide)) h

/-- A block string goes on after a line end as one, and so does any other after the line before it. -/
theorem isBlock_line (hc : c ∈ lineEnds) (h : IsBlock (line ++ c :: cs)) :
    IsBlock cs ∧ ∀ {d ds}, d ∈ lineEnds → IsBlock ds → IsBlock (line ++ d :: ds) := by
  have hquote : ∀ {d}, d ∈ lineEnds → d ∉ tripleQuote := fun hd hmem => not_mem_escape hd (List.mem_cons_of_mem _ hmem)
  generalize htail : line ++ c :: cs = tail at h
  induction h generalizing line with
  | close => exact absurd (htail ▸ by simp) (hquote hc)
  | @escape tail h ih =>
    -- the escaped quotes lie before the line end
    have hprefix : '\\' :: tripleQuote <+: line := by
      rw [← isPrefix_append_cons (not_mem_escape hc), htail]
      exact ⟨tail, rfl⟩
    obtain ⟨line, rfl⟩ := hprefix
    have htail : line ++ c :: cs = tail := by simpa using htail
    obtain ⟨hcs, hline⟩ := ih htail
    exact ⟨hcs, fun hd hds => by simpa using IsBlock.escape (hline hd hds)⟩
  | @plain d tail hclose hescape h ih =>
    cases line with
    | nil =>
      obtain ⟨rfl, rfl⟩ := List.cons.inj htail
      exact ⟨h, isBlock_cons⟩
    | cons d' line =>
      obtain ⟨rfl, rfl⟩ := List.cons.inj htail
      obtain ⟨hcs, hline⟩ := @ih line rfl
      replace hclose : ¬ tripleQuote <+: (d' :: line) ++ c :: cs := hclose
      replace hescape : ¬ '\\' :: tripleQuote <+: (d' :: line) ++ c :: cs := hescape
      rw [isPrefix_append_cons (hquote hc)] at hclose
      rw [isPrefix_append_cons (not_mem_escape hc)] at hescape
      refine ⟨hcs, fun hd hds => .plain ?_ ?_ (hline hd hds)⟩
      · exact fun h => hclose ((@isPrefix_append_cons _ _ (d' :: line) _ (hquote hd)).1 h)
      · exact fun h => hescape ((@isPrefix_append_cons _ _ (d' :: line) _ (not_mem_escape hd)).1 h)

/-- A block string is one still if all its lines end in the same way. -/
theorem Lines.isBlock (h : Lines body lines) (hblock : IsBlock (body ++ tripleQuote)) (hstop : stop ∈ lineStops) :
    IsBlock (stop.intercalate lines ++ tripleQuote) := by
  induction h with
  | last => simpa using hblock
  | @next line end' rest lines _ hend hrest ih =>
    obtain ⟨next, others, rfl⟩ := List.exists_cons_of_ne_nil hrest.ne_nil
    obtain ⟨hafter, hline⟩ : IsBlock (rest ++ tripleQuote) ∧
        ∀ {d ds}, d ∈ lineEnds → IsBlock ds → IsBlock (line ++ d :: ds) := by
      cases hend with
      | feed => exact isBlock_line (c := '\n') (by decide) (by simpa using hblock)
      | lone => exact isBlock_line (c := '\r') (by decide) (by simpa using hblock)
      | pair =>
        have hblock : IsBlock (line ++ '\r' :: '\n' :: (rest ++ tripleQuote)) := by simpa using hblock
        obtain ⟨hfeed, hline⟩ := isBlock_line (by decide) hblock
        have hrest : IsBlock ([] ++ '\n' :: (rest ++ tripleQuote)) := hfeed
        exact ⟨(isBlock_line (by decide) hrest).1, hline⟩
    have hothers := ih hafter
    rw [List.intercalate_cons_cons, List.append_assoc, List.append_assoc]
    simp only [lineStops, List.mem_cons, List.not_mem_nil, or_false] at hstop
    rcases hstop with rfl | rfl | rfl
    · exact hline (by decide) hothers
    · exact hline (by decide) hothers
    · exact hline (by decide) (isBlock_cons (by decide) hothers)

/-- **How a block string is read.**  Its value are the lines of its body from the first to the last that is not blank,
where the lines after the first lose the least indentation that one of them has.  So the value has no carriage return, and
its first and its last line are not blank; lines keep their indentation relative to each other; all characters but white
space are kept; and it does not matter how the lines end. -/
theorem blockStringValue_of_token {source : String} {t : Token} (ht : t ∈ tokenize source) (hkind : t.kind = .blockString) :
    ∃ body k first others kept,
      t.text = blockText body ∧ Dedents body k first others kept ∧
      blockStringValue t.text = String.ofList (List.intercalate ['\n'] kept) ∧
      '\r' ∉ (blockStringValue t.text).toList ∧
      (kept ≠ [] → Lines (blockStringValue t.text).toList kept) ∧
      (∀ line ∈ others, isBlankLine line = false →
        (indentation (line.drop k)).length + k = (indentation line).length) ∧
      (blockStringValue t.text).toList.filter isSolid = (unescapeTripleQuotes body).filter isSolid ∧
      ∀ stop ∈ lineStops, ∀ lines, Lines body lines →
        (∀ rest, Lexeme .blockString (blockText (stop.intercalate lines)).toList rest) ∧
        blockStringValue (blockText (stop.intercalate lines)) = blockStringValue t.text := by
  obtain ⟨body, hblock, htext⟩ : ∃ body, IsBlock (body ++ tripleQuote) ∧ t.text = blockText body := by
    obtain ⟨-, rest, -, htoken, -⟩ := (tiles_tokenize source).tokens t ht (by simp [hkind])
    rw [hkind] at htoken
    rcases htoken with hlexeme | ⟨herror, -⟩
    · generalize htoList : t.text.toList = cs at hlexeme
      cases hlexeme with
      | blockString h =>
        obtain ⟨body, rfl⟩ := exists_body h
        exact ⟨body, h, by rw [blockText, ← htoList, String.ofList_toList]⟩
    · cases herror
  obtain ⟨k, first, others, h⟩ := dedents_keptLines body
  have hvalue := blockStringValue_blockText body
  have hlines : keptLines body ≠ [] → Lines (List.intercalate ['\n'] (keptLines body)) (keptLines body) := fun hne =>
    lines_intercalate (by decide) hne h.onOneLine
  rw [htext, hvalue, String.toList_ofList]
  refine ⟨body, k, first, others, keptLines body, rfl, h, rfl, ?_, hlines, fun line => h.length_indentation_drop,
    h.filter_isSolid, fun stop hstop lines hbody => ⟨fun rest => ?_, ?_⟩⟩
  · intro hreturn
    obtain hstop | ⟨line, hline, hmem⟩ := mem_intercalate hreturn
    · exact absurd hstop (by decide)
    · exact h.onOneLine line hline '\r' hmem (by decide)
  · rw [blockText, String.toList_ofList]
    exact .blockString (hbody.isBlock hblock hstop)
  · have hagain : Lines (stop.intercalate lines) lines := lines_intercalate hstop hbody.ne_nil hbody.onOneLine
    rw [blockStringValue_blockText, hagain.keptLines_eq, hbody.keptLines_eq]

/-- A block string with all kinds of line ends, an escape, and lines of different indentation between blank ones. -/
def verseSource : String := "\"\"\" \r\n    é \\\"\"\"\r\t  b\n \n\"\"\""

/-- The lines between the blank ones are kept, one of them with a space more at its front than the other. -/
theorem verse_dedented : ∃ t ∈ tokenize verseSource, t.kind = .blockString ∧
    blockStringValue t.text = " é \"\"\"\nb" ∧ ∃ body k first others kept, t.text = blockText body ∧
      Dedents body k first others kept ∧ blockStringValue t.text = String.ofList (List.intercalate ['\n'] kept) := by
  have ht : ⟨.blockString, ⟨0, 28⟩, verseSource⟩ ∈ tokenize verseSource := by decide +kernel
  obtain ⟨body, k, first, others, kept, htext, h, hvalue, -⟩ := blockStringValue_of_token ht rfl
  exact ⟨_, ht, rfl, by decide +kernel, body, k, first, others, kept, htext, h, hvalue⟩

end StringLiteral

end GraphQL
