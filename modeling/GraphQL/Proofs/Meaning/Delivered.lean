import GraphQL.Proofs.Meaning.Parts
import GraphQL.Proofs.Meaning.Results
import GraphQL.Proofs.Meaning.Untimed

/-!
# Delivered data

Whatever is delivered upholds the types of what is asked for (`ExecutionContext.upheld_of_respondWith`): the data of the
answer, which is null as a whole if an error reaches the fields of the operation, and every entry of every result that is
pulled after it.
-/

namespace GraphQL

open Execution Stage

variable {c : ExecutionContext} {s s₀ s' : ExecStage} {looks : List (Publisher Task)} {results : List SubsequentResult}

/-- What entries bring is asked for by grounded groups. -/
theorem IncrementalEntry.Brings.grounded {entry : IncrementalEntry} {a : Asked} {v : Json} (h : entry.Brings c a v) :
    a.IsGrounded := by
  cases h with
  | fields ho => exact ExecutionContext.grounded_asked ho.grounded
  | item hlist =>
    obtain ⟨_, _, -, -, husage⟩ := hlist
    exact husage.grounded

/-- The fields of the operation are asked for by grounded groups. -/
theorem ExecutionContext.grounded_opening {collected : CollectedFields} (h : c.collected = .ok collected) :
    (c.asked (c.opening collected)).IsGrounded :=
  grounded_asked (o := c.opening collected) fun field hfield =>
    Collector.grounded_collectFields Nat.one_pos h field (List.mem_append_left _ hfield)

/-- The entries of results are what the looks sent. -/
theorem Course.incremental_resultsOf {initial : InitialResult} (h : Course c s₀ looks s) (h₀ : c.Answered initial s₀) :
    (resultsOf looks).flatMap SubsequentResult.incremental = looks.flatMap fun p => p.sent.map p.entryOf := by
  obtain ⟨is, his, -⟩ := h₀.history
  obtain ⟨is', his', hlooks⟩ := h.history h₀.sound.1 his
  have hlooked : ∀ p ∈ looks, .looked p ∈ is ++ is' := by
    intro p hp
    rw [← hlooks] at hp
    exact List.mem_append_right _ (mem_looksOf.1 hp)
  clear h hlooks
  induction looks with
  | nil => rfl
  | cons p rest ih =>
    have hp := hlooked p List.mem_cons_self
    have ih := ih fun q hq => hlooked q (List.mem_cons_of_mem p hq)
    unfold resultsOf at ih ⊢
    rw [List.flatMap_cons, ← ih]
    cases hresult : p.nextResult?.2 with
    | none =>
      have hsent : p.sent = [] := by
        by_contra hne
        obtain ⟨result, hresult'⟩ := his'.exists_result hp hne
        rw [hresult] at hresult'
        exact absurd hresult' (by simp)
      simp only [List.filterMap_cons, hresult, hsent, List.map_nil, List.nil_append]
    | some result =>
      simp only [List.filterMap_cons, hresult, List.flatMap_cons, his'.incremental hp hresult]

/-- Entries of pulled results bring what is asked for comes to, and their errors tell of that. -/
theorem Pulls.reports {initial : InitialResult} (h : Pulls c s₀ results s') (h₀ : c.Answered initial s₀) :
    ∀ result ∈ results, ∀ entry ∈ result.incremental,
      ∃ a v, entry.Brings c a v ∧ a.Reports c (.ok v) entry.errors := by
  obtain ⟨hsound, hdone, -, hpending⟩ := h₀.sound
  obtain ⟨free, looks, s, hturns, rfl, -⟩ := h.turns hsound hdone hpending
  obtain ⟨l, -, hsends⟩ := hturns.sendsAsked h₀
  have hincremental := hturns.course.incremental_resultsOf h₀
  intro result hresult entry hentry
  have hmem : entry ∈ looks.flatMap fun p => p.sent.map p.entryOf := by
    rw [← hincremental]
    exact List.mem_flatMap.2 ⟨result, hresult, hentry⟩
  obtain ⟨p, hp, hmap⟩ := List.mem_flatMap.1 hmem
  obtain ⟨sent, hsent, rfl⟩ := List.mem_map.1 hmap
  obtain ⟨a, v, hbrings, hreports⟩ := hsends p hp sent hsent
  exact ⟨a, v, hbrings.brings, hreports⟩

/-- Entries of pulled results bring what is asked for comes to. -/
theorem Pulls.brings {initial : InitialResult} (h : Pulls c s₀ results s') (h₀ : c.Answered initial s₀) :
    ∀ result ∈ results, ∀ entry ∈ result.incremental, ∃ a v, entry.Brings c a v ∧ Settles c a (.ok v) := by
  intro result hresult entry hentry
  obtain ⟨a, v, hbrings, hreports⟩ := h.reports h₀ result hresult entry hentry
  exact ⟨a, v, hbrings, hreports.told.settles rfl⟩

/-- The data of an answer upholds the types of the operation, or it is null because of an error that is raised when its
fields are collected or reaches them.  Every entry of a result that is pulled after it upholds the types of what it
brings. -/
theorem ExecutionContext.upheld_of_respondWith {fuel : Nat} {answer : Answer}
    (h : (c.respondWith fuel).run c.stage = some (some answer, s₀)) :
    (∃ data, answer.data = some data ∧
      ((∃ collected, c.collected = .ok collected ∧ (c.asked (c.opening collected)).Upheld c data) ∨
        data = .null ∧ ((∃ e, c.collected = .error e) ∨
          ∃ collected, c.collected = .ok collected ∧ (c.asked (c.opening collected)).Reached c))) ∧
    ∀ initial results s', answer = .incremental initial → Pulls c s₀ results s' →
      ∀ result ∈ results, ∀ entry ∈ result.incremental, ∃ a v, entry.Brings c a v ∧ a.Upheld c v := by
  refine ⟨?_, ?_⟩
  · have hdata := data_of_respondWith h
    cases hcollected : c.collected with
    | error e =>
      rw [hcollected] at hdata
      exact ⟨.null, hdata, .inr ⟨rfl, .inl ⟨e, rfl⟩⟩⟩
    | ok collected =>
      rw [hcollected] at hdata
      obtain ⟨out, hsettles, -, hdata⟩ := hdata
      refine ⟨_, hdata, ?_⟩
      cases out with
      | error e => exact .inr ⟨rfl, .inr ⟨collected, rfl, hsettles.reached e rfl⟩⟩
      | ok v => exact .inl ⟨collected, rfl, hsettles.upheld (c.grounded_opening hcollected)⟩
  · rintro initial results s' rfl hpulls result hresult entry hentry
    obtain ⟨a, v, hbrings, hsettles⟩ := hpulls.brings ⟨fuel, h⟩ result hresult entry hentry
    exact ⟨a, v, hbrings, hsettles.upheld hbrings.grounded⟩

/-- A field that must not be null fails, in the initial data and in that of a fragment. -/
def failingFields : ExecutionContext :=
  .ofSelections
    [.ofFields "Query" [("o", .named "O"), ("p", .named "P")], .ofFields "O" [("must", .nonNull (.named "String"))],
      .ofFields "P" [("a", .named "String"), ("o", .named "O")]]
    [("O.must", { resolve := fun _ => .ok (.later none 1 (.error (.custom "no"))) })]
    (.object [("o", .object []), ("p", .object [("a", .string "1"), ("o", .object [])])])
    [.named "o" [.named "must"], .deferred [.named "p" [.named "a", .named "o" [.named "must"]]]]

/-- The objects around the fields of `failingFields` are null, and nothing else is. -/
theorem upheld_failingFields : ∃ initial s₀ results s', failingFields.Answered initial s₀ ∧
    PullsAll failingFields s₀ results s' ∧
    (∃ collected, failingFields.collected = .ok collected ∧
      (failingFields.asked (failingFields.opening collected)).Upheld failingFields (.object [("o", .null)])) ∧
    ∃ a, (∃ label errors, IncrementalEntry.Brings failingFields
        (.defer ⟨.object [("p", .object [("a", .string "1"), ("o", .null)])], .root, label, errors⟩) a
        (.object [("p", .object [("a", .string "1"), ("o", .null)])])) ∧
      a.Upheld failingFields (.object [("p", .object [("a", .string "1"), ("o", .null)])]) := by
  have hrun : (((failingFields.results 10).run failingFields.stage).bind (·.1)).map (fun out =>
      (out.1.data, (out.2.flatMap SubsequentResult.incremental).map IncrementalEntry.content)) =
        some (.object [("o", .null)], [(.object [("p", .object [("a", .string "1"), ("o", .null)])], .root)]) := by
    decide +kernel
  obtain ⟨initial, s₀, results, s', hanswered, hall, heq⟩ := ExecutionContext.pullsAll_of_map_results hrun
  obtain ⟨hinitial, hentries⟩ := Prod.mk.inj heq
  obtain ⟨fuel, hrespond⟩ := hanswered
  obtain ⟨⟨data, hdata, hupheld⟩, hpulls⟩ := ExecutionContext.upheld_of_respondWith hrespond
  obtain rfl : initial.data = data := Option.some.inj hdata
  refine ⟨initial, s₀, results, s', ⟨fuel, hrespond⟩, hall, ?_, ?_⟩
  · rw [hinitial] at hupheld
    exact hupheld.resolve_right fun ⟨hnull, _⟩ => absurd hnull (by simp)
  · have hmem : (.object [("p", .object [("a", .string "1"), ("o", .null)])], .root) ∈
        (results.flatMap SubsequentResult.incremental).map IncrementalEntry.content := by
      rw [hentries]
      exact List.mem_singleton_self _
    obtain ⟨entry, hentry, hcontent⟩ := List.mem_map.1 hmem
    obtain ⟨result, hresult, hentry⟩ := List.mem_flatMap.1 hentry
    obtain ⟨a, v, hbrings, hupheld⟩ := hpulls initial results s' rfl hall.pulls result hresult entry hentry
    cases hbrings with
    | @fields o data label errors ho =>
      obtain ⟨rfl, hroot⟩ := Prod.mk.inj hcontent
      exact ⟨_, ⟨label, errors, hroot ▸ .fields ho⟩, hupheld⟩
    | item => exact absurd (Prod.mk.inj hcontent).1 (by simp)

end GraphQL
