import GraphQL.Proofs.Document.Recovery
import GraphQL.Proofs.Document.Tiling

/-!
# Reading to the end

However wrong a source is, the reader gets to its end, enters no more productions than sixteen for each token, and reports
each error token once (`Document.parse?_progress`).
-/

namespace GraphQL

/-! ### Error tokens -/

section

variable {source : String} {tokens : List Token} {t u : Token}

/-- Among the tokens of a source, a token other than the last is the only one with its span. -/
theorem Tiles.eq_of_span (h : Tiles source tokens) (ht : t ∈ tokens) (hu : u ∈ tokens) (hkind : t.kind ≠ .endOfFile)
    (hspan : t.span = u.span) : t = u := by
  have hnonempty := h.nonempty t ht hkind
  have hordered := List.pairwise_iff_getElem.1 h.ordered
  obtain ⟨i, hi, rfl⟩ := List.getElem_of_mem ht
  obtain ⟨j, hj, rfl⟩ := List.getElem_of_mem hu
  rcases Nat.lt_trichotomy i j with hlt | rfl | hlt
  · have hle := hordered i j hi hj hlt
    rw [← hspan] at hle
    omega
  · rfl
  · have hle := hordered j i hj hi hlt
    rw [← hspan] at hle
    omega

/-- Each error token is the only one with its span. -/
theorem Tiles.filter_span (h : Tiles source tokens) (ht : t ∈ tokens) (hkind : t.kind = .error) :
    (tokens.filter (·.kind = .error)).filter (·.span = t.span) = [t] := by
  have hdistinct : (tokens.filter (·.kind = .error)).Pairwise (·.span ≠ ·.span) := by
    refine (List.pairwise_filter.2 (h.ordered.imp_of_mem ?_))
    intro t u ht hu hle herror _ hspan
    have hne : t.kind ≠ .endOfFile := by
      rw [of_decide_eq_true herror]
      nofun
    have hnonempty := h.nonempty t ht hne
    rw [← hspan] at hle
    omega
  have hmem : t ∈ tokens.filter (·.kind = .error) := List.mem_filter.2 ⟨ht, decide_eq_true hkind⟩
  generalize tokens.filter (·.kind = .error) = errors at hdistinct hmem
  induction hdistinct with
  | nil => cases hmem
  | @cons u rest hu _ ih =>
    rcases List.mem_cons.1 hmem with rfl | hmem
    · rw [List.filter_cons_of_pos (by simp), List.filter_eq_nil_iff.2]
      intro v hv
      simpa using fun hspan => hu v hv hspan.symm
    · rw [List.filter_cons_of_neg (by simpa using hu t hmem)]
      exact ih hmem

end

/-- A cursor that gets from the first token to the last one accounts for all of them. -/
theorem Cursor.accounts_ofTokens (lines : LineIndex) {tokens : List Token} (hended : Ended tokens)
    (hformed : ∀ t ∈ tokens, t.Formed) :
    Ready (ofTokens lines tokens).tokens ∧ (ofTokens lines tokens).tokens.length ≤ tokens.length ∧
      ∀ c : Cursor, (ofTokens lines tokens).Reaches c → c.current.kind = .endOfFile →
        ∃ taken, tokens = taken ++ [c.current] ∧ Accounts tokens taken c.reports := by
  obtain ⟨hready, errors, htokens, herrors, hreports⟩ :=
    advanceTo_spec hended hformed ⟨lines, ⟨.endOfFile, .empty 0, ""⟩, tokens, []⟩
  refine ⟨hready, ?_, ?_⟩
  · have hlength := congrArg List.length htokens
    rw [List.length_append] at hlength
    unfold ofTokens
    omega
  · intro c hreaches hend
    obtain ⟨hready', taken, reports, hway, hreports', haccounts⟩ := hreaches
    rw [tokens_eq_singleton (hready' hready) hend] at hway
    refine ⟨errors ++ taken, ?_, ?_⟩
    · rw [List.append_assoc, ← hway]
      exact htokens
    · have hall := (accounts_errors tokens herrors).append haccounts fun t ht => by
        rw [htokens]
        exact List.mem_append_right _ ht
      rw [hreports']
      unfold ofTokens
      rw [hreports, List.append_nil]
      exact hall

/-- What is reported of a source that is read to its end: one diagnostic for each error token, at its span. -/
theorem Cursor.Accounts.filter_span {source : String} {tokens taken : List Token} {reports : List Diagnostic}
    {last t : Token} (htiles : Tiles source tokens) (h : Cursor.Accounts tokens taken reports)
    (htokens : tokens = taken ++ [last]) (hlast : last.kind ≠ .error) (ht : t ∈ tokens) (hkind : t.kind = .error) :
    reports.reverse.filter (·.span = t.span) = [Cursor.diagnoseError t] := by
  have hne : t.kind ≠ .endOfFile := by
    rw [hkind]
    nofun
  -- what is reported at the span of an error token is reported of a single token
  have hlexical : ∀ d ∈ reports.reverse, d.span = t.span → d.problem.isLexical = true := by
    intro d hd hspan
    by_contra hother
    obtain ⟨u, hu, hukind, huspan⟩ := h.others d (List.mem_reverse.1 hd) (by simpa using hother)
    obtain rfl := htiles.eq_of_span ht hu hne (hspan.symm.trans huspan)
    exact hukind hkind
  have hfilter : reports.reverse.filter (·.span = t.span) =
      (reports.reverse.filter (·.problem.isLexical)).filter (·.span = t.span) := by
    rw [List.filter_filter]
    refine List.filter_congr fun d hd => ?_
    by_cases hspan : d.span = t.span
    · simp [hspan, hlexical d hd hspan]
    · simp [hspan]
  have herrors := htiles.filter_span ht hkind
  rw [htokens, List.filter_append, List.filter_cons_of_neg (by simpa using hlast), List.filter_nil, List.append_nil]
    at herrors
  have hspan : ((fun d : Diagnostic => decide (d.span = t.span)) ∘ Cursor.diagnoseError) = fun u => decide (u.span = t.span) := by
    funext u
    simp [Cursor.diagnoseError_span]
  rw [hfilter, h.errors, List.filter_map, hspan, herrors]
  rfl

/-- What the reader enters when it reads a source, if it does not run out of fuel. -/
def Document.track (source : String) : Option (Document × List Step) × Cursor :=
  let tokens := tokenize source
  ((Track.document (4 * tokens.length + 16)).run []).run.run (Cursor.ofTokens (LineIndex.ofSource source) tokens)

/-- However wrong a source is, the reader gets to its end, without running out of fuel.  All that it enters on the way takes a
token, or stands at the end of the file, but for what is optional, and there are no more than sixteen productions for each
token.  Of each error token it reports what is wrong with it, and nothing else at its span. -/
theorem Document.parse?_progress {source : String} {r : ParseResult} (h : Document.parse? source = some r) :
    ∃ steps final, Document.track source = (some (r.document, steps), final) ∧ r.diagnostics = final.reports.reverse ∧
      final.current.kind = .endOfFile ∧
      (∀ s ∈ steps, s.production.mustMove = true → s.Moves) ∧
      steps.length ≤ 16 * (tokenize source).length ∧
      ∀ t ∈ tokenize source, t.kind = .error → r.diagnostics.filter (·.span = t.span) = [Cursor.diagnoseError t] := by
  have hr : r = ofTokens (LineIndex.ofSource source) (tokenize source) := by
    unfold parse? at h
    dsimp only at h
    split at h
    · cases h
    · exact (Option.some.inj h).symm
  subst hr
  let lines := LineIndex.ofSource source
  obtain ⟨hready, hlength, haccounts⟩ :=
    Cursor.accounts_ofTokens lines (ended_tokenize source) (formed_tokenize source)
  have hfuel : 3 * (Cursor.ofTokens lines (tokenize source)).tokens.length + 4 ≤ 4 * (tokenize source).length + 16 := by omega
  obtain ⟨steps, hrun, hv, hend⟩ := Track.runs_document hready hfuel
  refine ⟨steps, _, ?_, rfl, hend, hv.moves, ?_, ?_⟩
  · unfold track
    rw [hrun, List.append_nil]
    rfl
  · have hcount := hv.count
    omega
  · intro t ht hkind
    obtain ⟨taken, htokens, haccounts⟩ := haccounts _ hv.reaches hend
    exact haccounts.filter_span (tiles_tokenize source) htokens (by rw [hend]; nofun) ht hkind

/-- A source with unknown characters, numbers that go on wrongly, brackets that are never closed and an open string. -/
def Document.malformedSource : String := "query Q($ = [? 01 \x7b b(: . \x7d @ on \x7b ... \"c"

/-- The reader gets to the end of the malformed source, with an error token still to report when all else is missing. -/
theorem Document.parse?_malformedSource : ∃ r steps final, Document.parse? malformedSource = some r ∧
    Document.track malformedSource = (some (r.document, steps), final) ∧ final.current.kind = .endOfFile ∧
    (tokenize malformedSource).countP (·.kind = .error) = 4 ∧
    ∀ t ∈ tokenize malformedSource, t.kind = .error → r.diagnostics.filter (·.span = t.span) = [Cursor.diagnoseError t] := by
  have hread : (Document.parse? malformedSource).isSome = true := by decide +kernel
  obtain ⟨r, hr⟩ := Option.isSome_iff_exists.1 hread
  obtain ⟨steps, final, htrack, -, hend, -, -, herrors⟩ := Document.parse?_progress hr
  exact ⟨r, steps, final, hr, htrack, hend, by decide +kernel, herrors⟩

end GraphQL
