import GraphQL.Source.Span
import Mathlib.Data.List.Basic

/-!
# Lines and columns

The table of an index is increasing, and its entries after the first are the bytes after the line feeds (`mem_startsAfter`).
So a search for an offset ends at the last entry that is not beyond it, whether it hits an entry or falls between two
(`exists_isLine`), and the number of that entry is the number of line feeds before the offset (`countP_startsAfter`).

The result is that locations are exact, that no step of finding them fails, and that they increase with the offset
(`LineIndex.locations_ofSource`).
-/

namespace GraphQL

/-! ### Searching a sorted table -/

section

variable {table : Array Nat} {value low high i : Nat}

/-- The entries of a table increase. -/
def Increasing (table : Array Nat) : Prop := ∀ i j (_ : i < j) (hj : j < table.size), table[i] < table[j]

theorem Increasing.le_of_le (hsorted : Increasing table) {j : Nat} (hij : i ≤ j) (hj : j < table.size) :
    table[i] ≤ table[j] := by
  obtain heq | hlt := Nat.eq_or_lt_of_le hij
  · subst heq
    exact Nat.le_refl _
  · exact Nat.le_of_lt (hsorted i j hlt hj)

/-- All entries before `low` are less than a value, and all from `high` on are greater. -/
structure Parts (table : Array Nat) (value low high : Nat) : Prop where
  less : ∀ j (hj : j < table.size), j < low → table[j] < value
  greater : ∀ j (hj : j < table.size), high ≤ j → value < table[j]

/-- A result is right: the value stands at the index, or it is not in the table and the index is where it would stand. -/
def SearchResult.IsRight (table : Array Nat) (value : Nat) : SearchResult → Prop
  | .found i => table[i]? = some value
  | .missing i => i ≤ table.size ∧ Parts table value i i

theorem Parts.after (hsorted : Increasing table) (h : Parts table value low high) (hi : i < table.size)
    (hless : table[i] < value) : Parts table value (i + 1) high := by
  refine ⟨fun j hj hji => ?_, h.greater⟩
  have hle := hsorted.le_of_le (Nat.le_of_lt_succ hji) hi
  omega

theorem Parts.before (hsorted : Increasing table) (h : Parts table value low high) (hi : i < table.size)
    (hgreater : value < table[i]) : Parts table value low i := by
  refine ⟨h.less, fun j hj hij => ?_⟩
  have hle := hsorted.le_of_le hij hj
  omega

/-- One look at the middle keeps the value, if it is in the table, among the entries that are left. -/
theorem isRight_searchBetween (hsorted : Increasing table) (inside : high ≤ table.size) (horder : low ≤ high)
    (h : Parts table value low high) : (searchBetween table value low high inside).IsRight table value := by
  fun_induction searchBetween table value low high inside with
  | case1 low high inside hopen middle hhit => exact Array.getElem?_eq_some_iff.2 ⟨_, hhit⟩
  | case2 low high inside hopen middle hmiss hless ih =>
    exact ih (by omega) (h.after hsorted (by omega) hless)
  | case3 low high inside hopen middle hmiss hless ih =>
    exact ih (by omega) (h.before hsorted (by omega) (by omega))
  | case4 low high inside hclosed =>
    have heq : high = low := by omega
    subst heq
    exact ⟨inside, h⟩

theorem isRight_search (hsorted : Increasing table) (value : Nat) : (search table value).IsRight table value := by
  apply isRight_searchBetween hsorted _ (Nat.zero_le _)
  constructor
  · intro j _ hj
    omega
  · intro j hj hsize
    omega

end

/-! ### The line of an offset -/

namespace LineIndex

variable {index : LineIndex} {offset : Nat}

/-- The last line that starts at or before an offset. -/
structure IsLine (index : LineIndex) (offset line start : Nat) : Prop where
  starts : index.starts[line]? = some start
  le : start ≤ offset
  last : ∀ j (hj : j < index.starts.size), line < j → offset < index.starts[j]

/-- If lines start at 0, the offset is not put in before the first of them. -/
theorem pos_of_missing (hsorted : Increasing index.starts) (hfirst : index.starts[0]? = some 0) {next : Nat}
    (h : search index.starts offset = .missing next) : 0 < next := by
  obtain ⟨hsize, hzero⟩ := Array.getElem?_eq_some_iff.1 hfirst
  have hright := isRight_search hsorted offset
  rw [h] at hright
  by_contra hnext
  have hgreater := hright.2.greater 0 hsize (by omega)
  omega

theorem exists_isLine (hsorted : Increasing index.starts) (hfirst : index.starts[0]? = some 0) (offset : Nat) :
    ∃ line start, index.line? offset = some line ∧ index.IsLine offset line start := by
  have hright := isRight_search hsorted offset
  unfold line?
  cases hsearch : search index.starts offset with
  | found line =>
    rw [hsearch] at hright
    obtain ⟨hsize, heq⟩ := Array.getElem?_eq_some_iff.1 hright
    refine ⟨line, offset, rfl, hright, Nat.le_refl _, fun j hj hlt => ?_⟩
    have := hsorted line j hlt hj
    omega
  | missing next =>
    rw [hsearch] at hright
    have hpos := pos_of_missing hsorted hfirst hsearch
    cases next with
    | zero => omega
    | succ line =>
      obtain ⟨hsize, hparts⟩ := hright
      have hline : line < index.starts.size := by omega
      refine ⟨line, index.starts[line], rfl, Array.getElem?_eq_some_iff.2 ⟨hline, rfl⟩, ?_, fun j hj hlt => ?_⟩
      · exact Nat.le_of_lt (hparts.less line hline (by omega))
      · exact hparts.greater j hj (by omega)

/-- The lines up to that of an offset are those that start at or before it. -/
theorem IsLine.countP_eq {line start : Nat} (h : index.IsLine offset line start) (hsorted : Increasing index.starts) :
    index.starts.toList.countP (· ≤ offset) = line + 1 := by
  obtain ⟨hsize, hstart⟩ := Array.getElem?_eq_some_iff.1 h.starts
  have htake : ∀ s ∈ index.starts.toList.take (line + 1), s ≤ offset := by
    intro s hs
    obtain ⟨j, hj, rfl⟩ := List.getElem_of_mem hs
    simp only [List.length_take, Array.length_toList] at hj
    rw [List.getElem_take, Array.getElem_toList]
    have hle := hsorted.le_of_le (show j ≤ line by omega) hsize
    have hstop := h.le
    omega
  have hdrop : ∀ s ∈ index.starts.toList.drop (line + 1), ¬ s ≤ offset := by
    intro s hs
    obtain ⟨j, hj, rfl⟩ := List.getElem_of_mem hs
    simp only [List.length_drop, Array.length_toList] at hj
    rw [List.getElem_drop, Array.getElem_toList]
    have := h.last (line + 1 + j) (by omega) (by omega)
    omega
  rw [← List.take_append_drop (line + 1) index.starts.toList, List.countP_append,
    List.countP_eq_length.2 (by simpa using htake), List.countP_eq_zero.2 (by simpa using hdrop)]
  simp only [List.length_take, Array.length_toList]
  omega

/-! ### The table of a source -/

variable {bytes : List UInt8} {base s n : Nat}

/-- Offsets that fit in 32 bits are kept as they are. -/
theorem startsAfter_cons (b : UInt8) (rest : List UInt8) (hbase : base ≤ maxOffset) :
    startsAfter base (b :: rest) =
      if b = lineFeed then (base + 1) :: startsAfter (base + 1) rest else startsAfter (base + 1) rest := by
  rw [startsAfter, Nat.mod_eq_of_lt (by omega)]

theorem mem_startsAfter (hbound : bytes.length + base ≤ maxOffset) :
    s ∈ startsAfter base bytes ↔ ∃ feed, bytes[feed]? = some lineFeed ∧ s = base + feed + 1 := by
  induction bytes generalizing base with
  | nil => simp [startsAfter]
  | cons b rest ih =>
    rw [List.length_cons] at hbound
    have hrest : s ∈ startsAfter (base + 1) rest ↔
        ∃ feed, (b :: rest)[feed + 1]? = some lineFeed ∧ s = base + (feed + 1) + 1 := by
      rw [ih (by omega)]
      simp only [List.getElem?_cons_succ, show ∀ feed, base + 1 + feed + 1 = base + (feed + 1) + 1 by omega]
    rw [← Nat.or_exists_add_one, ← hrest, List.getElem?_cons_zero, startsAfter_cons b rest (by omega)]
    by_cases hb : b = lineFeed <;> simp [hb]

theorem lt_of_mem_startsAfter (hbound : bytes.length + base ≤ maxOffset) (hs : s ∈ startsAfter base bytes) : base < s := by
  obtain ⟨feed, -, rfl⟩ := (mem_startsAfter hbound).1 hs
  omega

theorem pairwise_startsAfter (hbound : bytes.length + base ≤ maxOffset) : (startsAfter base bytes).Pairwise (· < ·) := by
  induction bytes generalizing base with
  | nil => simp [startsAfter]
  | cons b rest ih =>
    rw [List.length_cons] at hbound
    rw [startsAfter_cons b rest (by omega)]
    split
    · rw [List.pairwise_cons]
      exact ⟨fun s hs => lt_of_mem_startsAfter (by omega) hs, ih (by omega)⟩
    · exact ih (by omega)

/-- As many lines start after a first one, up to an offset, as there are line feeds before the offset. -/
theorem countP_startsAfter (hbound : bytes.length + base ≤ maxOffset) (n : Nat) :
    (startsAfter base bytes).countP (· ≤ base + n) = (bytes.take n).count lineFeed := by
  induction bytes generalizing base n with
  | nil => simp [startsAfter]
  | cons b rest ih =>
    cases n with
    | zero =>
      rw [List.take_zero, List.count_nil, List.countP_eq_zero]
      intro s hs
      have := lt_of_mem_startsAfter hbound hs
      simp only [decide_eq_true_eq]
      omega
    | succ n =>
      rw [List.length_cons] at hbound
      have hrest : (startsAfter (base + 1) rest).countP (· ≤ base + 1 + n) = _ := ih (by omega) n
      rw [show base + 1 + n = base + (n + 1) by omega] at hrest
      rw [startsAfter_cons b rest (by omega), List.take_succ_cons]
      by_cases hb : b = lineFeed
      · rw [if_pos hb, List.countP_cons_of_pos (by simp), hrest, hb, List.count_cons_self]
      · rw [if_neg hb, hrest, List.count_cons_of_ne hb]

end LineIndex

/-! ### Locations among bytes -/

variable {bytes : List UInt8} {offset a b start : Nat} {l m : Location}

/-- The start of the line of an offset: it is the first byte or follows a line feed, and no line feed stands between it and
the offset. -/
structure StartsLine (bytes : List UInt8) (offset start : Nat) : Prop where
  opens : start = 0 ∨ ∃ feed, bytes[feed]? = some lineFeed ∧ start = feed + 1
  le : start ≤ offset
  last : ∀ feed, start ≤ feed → feed < offset → bytes[feed]? ≠ some lineFeed

/-- The location of an offset: its line is counted by the line feeds before it, its column by the bytes after the last of
them. -/
structure Location.Marks (l : Location) (bytes : List UInt8) (offset : Nat) : Prop where
  line : l.line = 1 + (bytes.take offset).count lineFeed
  column : ∃ start, StartsLine bytes offset start ∧ l.column = 1 + (offset - start)

/-- The order of locations: by line, then by column. -/
def Location.Before (l m : Location) : Prop := l.line < m.line ∨ l.line = m.line ∧ l.column < m.column

/-- The start of a line up to an offset is not after one that is at or before the offset. -/
theorem StartsLine.le_of_le (h : StartsLine bytes a start) {other : Nat} (hother : StartsLine bytes b other)
    (hle : other ≤ a) : other ≤ start := by
  obtain hzero | ⟨feed, hfeed, hopens⟩ := hother.opens
  · omega
  · by_contra hlt
    exact h.last feed (by omega) (by omega) hfeed

theorem count_take_le (bytes : List UInt8) (hab : a ≤ b) : (bytes.take a).count lineFeed ≤ (bytes.take b).count lineFeed :=
  (List.take_sublist_take_left hab).count_le lineFeed

theorem count_take_lt {feed : Nat} (hfeed : bytes[feed]? = some lineFeed) (ha : a ≤ feed) (hb : feed < b) :
    (bytes.take a).count lineFeed < (bytes.take b).count lineFeed := by
  have hsucc : (bytes.take (feed + 1)).count lineFeed = (bytes.take feed).count lineFeed + 1 := by
    rw [List.take_add_one, hfeed, List.count_append]
    simp
  have hbelow := count_take_le bytes ha
  have habove := count_take_le bytes (show feed + 1 ≤ b by omega)
  omega

theorem Location.Marks.before (hl : l.Marks bytes a) (hm : m.Marks bytes b) (hab : a < b) : l.Before m := by
  obtain ⟨s, hs, hlcolumn⟩ := hl.column
  obtain ⟨t, ht, hmcolumn⟩ := hm.column
  have hlines := count_take_le bytes (Nat.le_of_lt hab)
  have hlline := hl.line
  have hmline := hm.line
  by_cases hta : t ≤ a
  · -- Both are on the line that starts at `t`.
    have hts : t ≤ s := hs.le_of_le ht hta
    have hst : s ≤ t := ht.le_of_le hs (by have := hs.le; omega)
    have hle := ht.le
    unfold Location.Before
    omega
  · obtain hzero | ⟨feed, hfeed, hopens⟩ := ht.opens
    · omega
    · have hlt := count_take_lt hfeed (a := a) (b := b) (by omega) (by have := ht.le; omega)
      left
      omega

/-! ### Locations in a source -/

namespace LineIndex

variable {source : String}

theorem starts_ofSource (source : String) :
    (ofSource source).starts = (0 :: startsAfter 0 source.toByteArray.data.toList).toArray := rfl

theorem increasing_ofSource (hsize : source.utf8ByteSize ≤ maxOffset) : Increasing (ofSource source).starts := by
  have hpairs : (0 :: startsAfter 0 source.toByteArray.data.toList).Pairwise (· < ·) :=
    List.pairwise_cons.2 ⟨fun s hs => lt_of_mem_startsAfter hsize hs, pairwise_startsAfter hsize⟩
  intro i j hij hj
  exact List.pairwise_iff_getElem.1 hpairs i j _ hj hij

theorem IsLine.startsLine {line start : Nat} (hsize : source.utf8ByteSize ≤ maxOffset)
    (h : (ofSource source).IsLine offset line start) : StartsLine source.toByteArray.data.toList offset start := by
  have hmem : ∀ s, s ∈ (ofSource source).starts ↔
      s = 0 ∨ ∃ feed, source.toByteArray.data.toList[feed]? = some lineFeed ∧ s = feed + 1 := by
    intro s
    rw [starts_ofSource, List.mem_toArray, List.mem_cons, mem_startsAfter hsize]
    simp only [Nat.zero_add]
  refine ⟨(hmem start).1 (Array.mem_of_getElem? h.starts), h.le, fun feed hle hlt hfeed => ?_⟩
  -- The byte after such a line feed would start a later line at or before the offset.
  obtain ⟨j, hj, heq⟩ := Array.getElem_of_mem ((hmem (feed + 1)).2 (.inr ⟨feed, hfeed, rfl⟩))
  obtain ⟨hline, hstart⟩ := Array.getElem?_eq_some_iff.1 h.starts
  by_cases hlater : line < j
  · have := h.last j hj hlater
    omega
  · have := (increasing_ofSource hsize).le_of_le (Nat.le_of_not_lt hlater) hline
    omega

theorem IsLine.line_eq {line start : Nat} (hsize : source.utf8ByteSize ≤ maxOffset)
    (h : (ofSource source).IsLine offset line start) :
    line = (source.toByteArray.data.toList.take offset).count lineFeed := by
  have hcount := h.countP_eq (increasing_ofSource hsize)
  have hfeeds : (startsAfter 0 source.toByteArray.data.toList).countP (· ≤ 0 + offset) = _ :=
    countP_startsAfter hsize offset
  rw [Nat.zero_add] at hfeeds
  rw [starts_ofSource, List.countP_cons_of_pos (by simp), hfeeds] at hcount
  omega

/-- No step of locating an offset fails, and its location is the one that its bytes give it. -/
theorem location?_ofSource (hsize : source.utf8ByteSize < maxOffset) (hoffset : offset ≤ source.utf8ByteSize) :
    (ofSource source).location? offset = some ((ofSource source).location offset) ∧
      ((ofSource source).location offset).Marks source.toByteArray.data.toList offset := by
  have hle : source.utf8ByteSize ≤ maxOffset := Nat.le_of_lt hsize
  obtain ⟨line, start, hline, h⟩ := exists_isLine (increasing_ofSource hle) rfl offset
  have hlines : line ≤ source.utf8ByteSize := by
    rw [h.line_eq hle]
    exact Nat.le_trans List.count_le_length (List.length_take_le' ..)
  have hstart := h.le
  have hlocation : (ofSource source).location? offset = some ⟨line + 1, offset - start + 1⟩ := by
    unfold location?
    rw [hline, Option.bind_eq_bind, Option.bind_some, h.starts]
    exact if_pos ⟨hstart, by omega, by omega⟩
  have heq : (ofSource source).location offset = ⟨line + 1, offset - start + 1⟩ := by
    unfold location
    rw [hlocation, Option.getD_some]
  rw [heq]
  refine ⟨hlocation, ?_, start, h.startsLine hle, ?_⟩
  · rw [← h.line_eq hle, Nat.add_comm]
  · exact Nat.add_comm _ _

/-- Locations in a source of less than 2^32 - 1 bytes: no step of finding one fails, and it is never searched for before the
first line; it has one line for each line feed before the offset, and one column for each byte after the last of them, both
from 1; and a later offset has a later location, so that no two offsets have the same one. -/
theorem locations_ofSource (source : String) (hsize : source.utf8ByteSize < maxOffset) :
    (∀ offset ≤ source.utf8ByteSize,
      (∀ next, search (ofSource source).starts offset = .missing next → 0 < next) ∧
      (ofSource source).location? offset = some ((ofSource source).location offset) ∧
      ((ofSource source).location offset).Marks source.toByteArray.data.toList offset) ∧
    (∀ a b, a < b → b ≤ source.utf8ByteSize → ((ofSource source).location a).Before ((ofSource source).location b)) ∧
    (∀ a b, a ≤ source.utf8ByteSize → b ≤ source.utf8ByteSize →
      (ofSource source).location a = (ofSource source).location b → a = b) := by
  have hbefore : ∀ a b, a < b → b ≤ source.utf8ByteSize →
      ((ofSource source).location a).Before ((ofSource source).location b) := by
    intro a b hab hb
    exact (location?_ofSource hsize (by omega)).2.before (location?_ofSource hsize hb).2 hab
  have hdistinct : ∀ a b, a < b → b ≤ source.utf8ByteSize →
      (ofSource source).location a ≠ (ofSource source).location b := by
    intro a b hab hb heq
    have h := hbefore a b hab hb
    rw [heq] at h
    unfold Location.Before at h
    omega
  refine ⟨fun offset hoffset => ?_, hbefore, fun a b ha hb heq => ?_⟩
  · exact ⟨fun next => pos_of_missing (increasing_ofSource (Nat.le_of_lt hsize)) rfl, location?_ofSource hsize hoffset⟩
  · by_contra hne
    obtain hlt | hgt := Nat.lt_or_gt_of_ne hne
    · exact hdistinct a b hlt hb heq
    · exact hdistinct b a hgt ha heq.symm

/-- Two lines, an empty one between them, and a character of two bytes: the offset after that character is on the third line,
in the third column, after the offset of the character. -/
theorem locations_accent : "a\n\né".utf8ByteSize < maxOffset ∧
    (ofSource "a\n\né").location? 5 = some ⟨3, 3⟩ ∧ (⟨3, 1⟩ : Location).Before ⟨3, 3⟩ := by
  have hsize : "a\n\né".utf8ByteSize = 5 := by decide +kernel
  have h := locations_ofSource "a\n\né" (by rw [hsize]; decide)
  have hthree : (ofSource "a\n\né").location 3 = ⟨3, 1⟩ := by decide +kernel
  have hfive : (ofSource "a\n\né").location 5 = ⟨3, 3⟩ := by decide +kernel
  refine ⟨by rw [hsize]; decide, ?_, ?_⟩
  · rw [(h.1 5 (Nat.le_of_eq hsize.symm)).2.1, hfive]
  · have hbefore := h.2.1 3 5 (by decide) (Nat.le_of_eq hsize.symm)
    rw [hthree, hfive] at hbefore
    exact hbefore

end LineIndex

end GraphQL
