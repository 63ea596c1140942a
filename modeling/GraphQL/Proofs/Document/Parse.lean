import GraphQL.Proofs.Document.Definitions

/-!
# What documents are read

A source is read without a diagnostic exactly if its tokens are valid and spell a document, and then that document is
read (`Document.diagnostics_eq_nil_iff`).
-/

namespace GraphQL

open Grammar GraphQL.Parser

/-! ### The tokens of a source -/

namespace Lexer

/-- No token but the last is the end of the file. -/
theorem scan_kind (c : Char) (rest : List Char) : (scan c rest).kind ≠ .endOfFile := by
  intro hkind
  have hlexeme := (scan_sound c rest).lexeme (by simp [hkind])
  rw [hkind] at hlexeme
  cases hlexeme

theorem ended_tokensFrom (fuel offset : Nat) (cs : List Char) : Ended (tokensFrom fuel offset cs) := by
  induction fuel generalizing offset cs with
  | zero => exact .last rfl
  | succ fuel ih =>
    unfold tokensFrom
    split
    · exact .last rfl
    · exact .cons (scan_kind _ _) (ih _ _)

end Lexer

theorem ended_tokenize (source : String) : Ended (tokenize source) := Lexer.ended_tokensFrom _ _ _

/-! ### Documents -/

namespace Document

variable {lines : LineIndex} {tokens : List Token}

/-- Tokens that are read without a diagnostic are valid and spell the document. -/
theorem spelled_ofTokens (hended : Ended tokens) (hformed : ∀ t ∈ tokens, t.Formed)
    (h : (ofTokens lines tokens).diagnostics = []) :
    Document.Spelled lines tokens (ofTokens lines tokens).document ∧ ∀ t ∈ tokens, t.Valid := by
  let start := Cursor.ofTokens lines tokens
  have hreports : ((document (4 * tokens.length + 16)).run start).2.reports = [] := List.reverse_eq_nil_iff.1 h
  have hleads := Grows.leads (p := document (4 * tokens.length + 16)) start
  have hstart : start.Over lines tokens := by
    refine Cursor.over_ofTokens hended hformed (List.suffix_nil.1 ?_)
    rw [← hreports]
    exact hleads.reports
  have hread : Reads lines (document (4 * tokens.length + 16)) tokens _
      ((document (4 * tokens.length + 16)).run start).2.tokens :=
    ⟨start, _, hstart, ⟨hleads.lines.trans hstart.lines, rfl, hleads.ready (hstart.tokens ▸ hstart.ready), hreports⟩, rfl⟩
  exact hread.spells_document (by omega)

/-- Valid tokens that spell a document are read as that document, without a diagnostic. -/
theorem Spelled.ofTokens_eq {d : Document} (h : Document.Spelled lines tokens d) (hended : Ended tokens)
    (hformed : ∀ t ∈ tokens, t.Formed) (hvalid : ∀ t ∈ tokens, t.Valid) : ofTokens lines tokens = ⟨d, []⟩ := by
  have hfine : Fine tokens := ⟨hended, hformed, hvalid⟩
  obtain ⟨stop, c, c', hc, hc', hrun⟩ := h.reads hfine (by omega : 3 * tokens.length < 4 * tokens.length + 16)
  have hstart : (Cursor.ofTokens lines tokens).Over lines tokens :=
    Cursor.over_ofTokens_of_ready hfine.ready
  obtain rfl := hstart.eq hc
  unfold ofTokens
  rw [hrun]
  simp [hc'.reports]

/-- A source is read without a diagnostic exactly if its tokens are valid and spell a document, and then that is the
document that is read. -/
theorem diagnostics_eq_nil_iff {source : String} {r : ParseResult} (h : parse? source = some r) :
    (r.diagnostics = [] ↔ (∀ t ∈ tokenize source, t.Valid) ∧
      ∃ d, Document.Spelled (LineIndex.ofSource source) (tokenize source) d) ∧
    ∀ d, (∀ t ∈ tokenize source, t.Valid) → Document.Spelled (LineIndex.ofSource source) (tokenize source) d →
      r.document = d := by
  have hr : r = ofTokens (LineIndex.ofSource source) (tokenize source) := by
    unfold parse? at h
    dsimp only at h
    split at h
    · cases h
    · exact (Option.some.inj h).symm
  subst hr
  have hended := ended_tokenize source
  have hformed := formed_tokenize source
  refine ⟨⟨fun hnone => ?_, fun ⟨hvalid, d, hd⟩ => ?_⟩, fun d hvalid hd => ?_⟩
  · obtain ⟨hspelled, hvalid⟩ := spelled_ofTokens hended hformed hnone
    exact ⟨hvalid, _, hspelled⟩
  · rw [hd.ofTokens_eq hended hformed hvalid]
  · rw [hd.ofTokens_eq hended hformed hvalid]

/-- A query with a variable, whose default has values of all kinds, an argument, a directive and all forms of fragments. -/
def querySource : String :=
  "query($n:[T!]=[-40 1.5e3 true null RED\"\\u0041\"])\x7ba:b(x:$n)@c\x7b...on T\x7bon\x7d...F\x7d...\x7bd\x7d\x7d" ++
    "fragment F on T\x7bd\x7d"

/-- The default in `querySource`. -/
private def queryDefault : Literal :=
  .list [.int (-40), .float (.ofDecimal false 15 2), .bool true, .null, .enumValue "RED", .string "A"]

set_option maxRecDepth 20000 in
private theorem read_querySource : (parse? querySource).map (fun r => (r.diagnostics,
    r.document.operations.flatMap fun o => o.variableDefs.map VariableDefinition.default)) =
      some ([], [some queryDefault]) := by
  rfl

/-- The query is read, without a diagnostic, as the document that it spells, and the default has the values that its
tokens say. -/
theorem spelled_querySource : ∃ d, parse? querySource = some ⟨d, []⟩ ∧
    Document.Spelled (LineIndex.ofSource querySource) (tokenize querySource) d ∧
    d.operations.flatMap (fun o => o.variableDefs.map VariableDefinition.default) = [some (.list
      [.int (-40), .float (.ofDecimal false 15 2), .bool true, .null, .enumValue "RED", .string "A"])] := by
  obtain ⟨⟨document, diagnostics⟩, hr, hread⟩ := Option.map_eq_some_iff.1 read_querySource
  obtain ⟨rfl, hdefaults⟩ := Prod.mk.inj hread
  obtain ⟨hiff, hdocument⟩ := diagnostics_eq_nil_iff hr
  obtain ⟨hvalid, d, hd⟩ := hiff.1 rfl
  obtain rfl := hdocument d hvalid hd
  exact ⟨_, hr, hd, hdefaults⟩

end Document

end GraphQL
