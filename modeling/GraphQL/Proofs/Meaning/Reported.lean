import GraphQL.Proofs.Meaning.Delivered
import GraphQL.Proofs.Meaning.Errors

/-!
# Errors that are delivered

Whatever is delivered, its errors and its nulls correspond (`ExecutionContext.errors_correspond`): each error was located
once, where it was raised, and belongs to a null of the data that it is delivered with, and each null that comes of an
error has one of them at it or below it.
-/

namespace GraphQL

open Execution Stage

/-- A field or an item at the path or below it raised the error, which was located there and not before. -/
def Asked.Located (c : ExecutionContext) (a : Asked) (path : Path) (e : Error) : Prop :=
  ∃ ch raw, a.Includes c ch ∧ ch.place.path.startsWith path = true ∧ (Asked.child ch).Raises c raw ∧ raw.path = none ∧
    e = raw.locate ch.place.group ch.place.path

/-- The child is found in the data at the path, and is null because of an error. -/
structure Asked.NullAt (c : ExecutionContext) (a : Asked) (path : Path) (data : Json) (ch : Child) (steps : List PathSegment) :
    Prop where
  nulls : a.Nulls c data ch
  nullable : ch.type.isNonNull = false
  path : ch.place.path = path.below steps
  null : data.at? steps = some .null

/-- The errors and the nulls of data at a path correspond. -/
structure Asked.Corresponds (c : ExecutionContext) (a : Asked) (path : Path) (data : Json) (errors : List Error) : Prop where
  located : ∀ e ∈ errors, a.Located c path e
  /-- Each error belongs to a null of the data, or to something below it. -/
  absorbed : ∀ e ∈ errors, ∃ ch steps, a.NullAt c path data ch steps ∧
    ∃ q, e.path = some q ∧ q.startsWith (path.below steps) = true
  /-- Each null that comes of an error has one of the errors at it or below it. -/
  told : ∀ ch, a.Nulls c data ch → ∃ steps, a.NullAt c path data ch steps ∧
    ∃ e ∈ errors, ∃ q, e.path = some q ∧ q.startsWith (path.below steps) = true

/-- The errors that come with an answer. -/
def Answer.errors : Answer → List Error
  | .single response => response.errors
  | .incremental initial => initial.errors

/-- The errors and the nulls of the data of an answer correspond.  If the data as a whole is null, all errors are from the
fields of the operation, or the only one is that its fields cannot be collected. -/
def ExecutionContext.Corresponds (c : ExecutionContext) (data : Json) (errors : List Error) : Prop :=
  match c.collected with
  | .error e => data = .null ∧ errors = [e.toError]
  | .ok collected => (c.asked (c.opening collected)).Corresponds c .root data errors ∨
    data = .null ∧ errors ≠ [] ∧ ∀ e ∈ errors, (c.asked (c.opening collected)).Located c .root e

variable {c : ExecutionContext} {a : Asked} {v : Json} {path : Path} {errors : List Error} {e : Error} {s₀ s' : ExecStage}

/-! ### Data and its errors -/

namespace Asked

theorem Arises.located (h : a.Arises c e) (hstands : a.StandsAt path) : a.Located c path e := by
  obtain ⟨ch, raw, hincludes, hraises, rfl⟩ := h
  obtain ⟨steps, hch⟩ := hincludes.standsAt hstands
  have hchild : (Asked.child ch).StandsAt (path.below steps) := hch
  exact ⟨ch, raw, hincludes, Path.startsWith_iff.2 ⟨steps, hch.1⟩, hraises, hraises.path_eq_none hchild, rfl⟩

theorem Nulls.nullAt {ch : Child} (h : a.Nulls c v ch) (hstands : a.StandsAt path) (hg : a.IsGrounded)
    (hv : Settles c a (.ok v)) : ∃ steps, a.NullAt c path v ch steps ∧ ch.StandsAt (path.below steps) := by
  obtain ⟨steps, hch, hat⟩ := h.held.standsAt hstands hg hv
  exact ⟨steps, ⟨h, ((hv.upheld hg).null ch h.held).1, hch.1, hat⟩, hch⟩

/-- Errors that tell of a value correspond to its nulls. -/
theorem Reports.corresponds (h : a.Reports c (.ok v) errors) (hstands : a.StandsAt path) (hg : a.IsGrounded) :
    a.Corresponds c path v errors := by
  have hv := h.told.settles rfl
  refine ⟨fun e he => (h.noted e he).traces.located hstands, fun e he => ?_, fun ch hnulls => ?_⟩
  · obtain ⟨ch, hnulls, hcomes⟩ := (h.noted e he).nulls rfl hg hv
    obtain ⟨steps, hnull, hch⟩ := hnulls.nullAt hstands hg hv
    exact ⟨ch, steps, hnull, hcomes.traces.startsWith hch⟩
  · obtain ⟨steps, hnull, -⟩ := hnulls.nullAt hstands hg hv
    obtain ⟨e, he, hbelow⟩ := h.told.told_of_nulls rfl hg.alike hstands hnulls
    exact ⟨steps, hnull, e, he, hnull.path ▸ hbelow⟩

end Asked

/-- What an entry brings stands at its path. -/
theorem IncrementalEntry.Brings.standsAt {entry : IncrementalEntry} (h : entry.Brings c a v) : a.StandsAt entry.path := by
  cases h with
  | fields ho => exact ho.standsAt
  | item => exact ⟨rfl, fun _ he => absurd he (by simp [StreamedList.child])⟩

/-! ### Answers -/

/-- The errors of an answer are those that the initial record holds, and that of the outcome. -/
theorem Execution.errors_of_answer {out : Except Error Json} {answer : Answer} {s s' : ExecStage} {r : InitialRecord}
    (hr : s.publisher.record? .initial = some (.initial r)) (h : (Execution.answer out).run s = some (answer, s')) :
    answer.errors = r.errors ++ match out with
      | .ok _ => []
      | .error e => [e] := by
  cases out with
  | error e =>
    obtain rfl : (s.answerError e).2 = answer := congrArg Prod.fst (Option.some.inj h)
    have hpublisher : s.dropTaken.publisher = s.publisher := (dropAll_beside _ _).publisher
    show s.dropTaken.publisher.takeErrors.2 ++ [e] = _
    rw [hpublisher, Publisher.errors_takeErrors hr, Publisher.noted_of_record? hr]
    rfl
  | ok data =>
    obtain rfl : (s.answerData data).2 = answer := congrArg Prod.fst (Option.some.inj h)
    have hr' : (s.publisher.publishChildren .initial).record? .initial = some (.initial r) := by
      unfold Publisher.record?
      rw [(Publisher.records_publishChildren s.publisher .initial).1]
      exact hr
    have herrors : (s.publisher.publishChildren .initial).takeErrors.2 = r.errors :=
      (Publisher.errors_takeErrors hr').trans (Publisher.noted_of_record? hr')
    rw [List.append_nil, ← herrors]
    unfold Stage.answerData
    dsimp only
    split <;> rfl

/-- The errors and the nulls of an answer correspond. -/
theorem ExecutionContext.Reports.corresponds {out : Except Error Json} {answer : Answer} {s s' : ExecStage}
    (h : c.Reports out s.publisher) (hanswer : (Execution.answer out).run s = some (answer, s')) :
    ∃ data, answer.data = some data ∧ c.Corresponds data answer.errors := by
  obtain ⟨r, hr, hreports⟩ := h
  refine ⟨_, data_of_answer hanswer, ?_⟩
  rw [errors_of_answer hr hanswer]
  unfold Corresponds
  cases hcollected : c.collected with
  | error e =>
    rw [hcollected] at hreports
    obtain ⟨rfl, hnil⟩ := hreports
    exact ⟨rfl, by rw [hnil]; rfl⟩
  | ok collected =>
    rw [hcollected] at hreports
    have hreports : (c.asked (c.opening collected)).Reports c out r.errors := hreports
    have hstands := c.standsAt_opening hcollected
    cases out with
    | ok v =>
      rw [List.append_nil]
      exact .inl (hreports.corresponds hstands (c.grounded_opening hcollected))
    | error e =>
      refine .inr ⟨rfl, by simp, fun e' he' => ?_⟩
      rcases List.mem_append.1 he' with he' | he'
      · exact (hreports.noted e' he').traces.located hstands
      · obtain rfl := List.mem_singleton.1 he'
        -- the error of the outcome is that of a child
        refine Asked.Arises.located (Or.resolve_right hreports.told.traces ?_) hstands
        rintro ⟨_, _, _, _, heq, -⟩
        exact absurd heq (by simp [asked])

/-- The response that is made, without letting time pass, of what the initial execution came to. -/
private theorem ExecutionContext.leads_response_corresponds (ran : Ran) {s : ExecStage}
    (hreports : ∀ out, ran = .done out → c.Reports out s.publisher) :
    Leads (match ran with
      | .waiting job => do
        dropInitial job
        return SyncError.notFinished.toResponse
      | .done outcome => do
        match ← answer outcome with
        | .single response => return response
        | .incremental _ =>
          modify Stage.cancel
          return SyncError.severalResults.toResponse) s fun response _ =>
      ∀ data, response.data = some data → c.Corresponds data response.errors := by
  cases ran with
  | waiting job =>
    exact Leads.bind fun _ _ _ => Leads.pure fun _ hdata => absurd hdata (by simp [SyncError.toResponse])
  | done outcome =>
    refine Leads.bind fun a s₁ hanswer => ?_
    cases a with
    | single r =>
      refine Leads.pure fun data hdata => ?_
      obtain ⟨data', hdata', hcorresponds⟩ := (hreports outcome rfl).corresponds hanswer
      obtain rfl : data' = data := Option.some.inj (hdata'.symm.trans hdata)
      exact hcorresponds
    | incremental initial =>
      exact Leads.bind (Leads.modify (Leads.pure fun _ hdata => absurd hdata (by simp [SyncError.toResponse])))

/-- Without letting time pass there may be no data, but if there is, its errors and its nulls correspond. -/
theorem ExecutionContext.corresponds_of_respondNow {response : Response} {data : Json}
    (h : c.respondNow.run c.stage = some (response, s')) (hdata : response.data = some data) :
    c.Corresponds data response.errors := by
  have hleads : Leads c.respondNow c.stage fun response _ =>
      ∀ data, response.data = some data → c.Corresponds data response.errors := by
    refine Leads.bind fun progress s₁ hbegin => ?_
    cases progress with
    | done outcome =>
      refine Leads.bind (Leads.pure (leads_response_corresponds (.done outcome) ?_))
      rintro _ ⟨⟩
      exact reports_of_completes hbegin (fun _ heq => ⟨(Progress.done.inj heq).symm, rfl⟩) fun _ heq => absurd heq (by simp)
    | go job =>
      refine Leads.andThen (leads_runInitial_completes _ _ job) fun ran s₂ hcompletes =>
        leads_response_corresponds ran ?_
      rintro out rfl
      refine reports_of_completes hbegin (fun _ heq => absurd heq (by simp)) ?_
      rintro _ ⟨⟩
      exact hcompletes
  exact hleads _ _ h data hdata

/-! ### Executions -/

/-- Whatever an execution delivers, its errors and its nulls correspond: the data of its answer, and every entry of every
result that is pulled after it, at the path of the entry. -/
theorem ExecutionContext.errors_correspond (c : ExecutionContext) :
    (∀ fuel answer s₀, (c.respondWith fuel).run c.stage = some (some answer, s₀) →
      (∃ data, answer.data = some data ∧ c.Corresponds data answer.errors) ∧
      ∀ initial results s', answer = .incremental initial → Pulls c s₀ results s' →
        ∀ result ∈ results, ∀ entry ∈ result.incremental, ∃ a v, entry.Brings c a v ∧
          a.Corresponds c entry.path v entry.errors) ∧
    ∀ response s' data, c.respondNow.run c.stage = some (response, s') → response.data = some data →
      c.Corresponds data response.errors := by
  refine ⟨fun fuel answer s₀ h => ⟨?_, ?_⟩, fun response s' data h hdata => corresponds_of_respondNow h hdata⟩
  · obtain ⟨out, s₁, hanswer, hreports⟩ := reports_of_respondWith h
    exact hreports.corresponds hanswer
  · rintro initial results s' rfl hpulls result hresult entry hentry
    obtain ⟨a, v, hbrings, hreports⟩ := hpulls.reports ⟨fuel, h⟩ result hresult entry hentry
    exact ⟨a, v, hbrings, hreports.corresponds hbrings.standsAt hbrings.grounded⟩

/-- A field that must not be null is, in the initial data. -/
def missingField : ExecutionContext :=
  .ofSelections [.ofFields "Query" [("o", .named "O")], .ofFields "O" [("must", .nonNull (.named "String"))]] []
    (.object [("o", .object [("must", .null)])]) [.named "o" [.named "must"]]

/-- The errors of `failingFields` and of `missingField` are those of the fields that fail, each with the data in which the
object around its field is null. -/
theorem errors_failingFields : (∃ initial s₀ results s', failingFields.Answered initial s₀ ∧
    PullsAll failingFields s₀ results s' ∧ initial.errors.map Error.path = [some (Path.root.below [.key "o", .key "must"])] ∧
    failingFields.Corresponds initial.data initial.errors ∧
    ∃ result ∈ results, ∃ entry ∈ result.incremental,
      entry.errors.map Error.path = [some (Path.root.below [.key "p", .key "o", .key "must"])] ∧
      ∃ a v, entry.Brings failingFields a v ∧ a.Corresponds failingFields entry.path v entry.errors) ∧
    ∃ response s', missingField.respondNow.run missingField.stage = some (response, s') ∧
      response.errors.map Error.path = [some (Path.root.below [.key "o", .key "must"])] ∧
      missingField.Corresponds (.object [("o", .null)]) response.errors := by
  constructor
  · have hrun : (((failingFields.results 10).run failingFields.stage).bind (·.1)).map (fun out =>
        (out.1.errors.map Error.path, out.2.flatMap fun result =>
          result.incremental.map fun entry => entry.errors.map Error.path)) =
          some ([some (Path.root.below [.key "o", .key "must"])],
            [[some (Path.root.below [.key "p", .key "o", .key "must"])]]) := by
      decide +kernel
    obtain ⟨initial, s₀, results, s', hanswered, hall, heq⟩ := ExecutionContext.pullsAll_of_map_results hrun
    obtain ⟨hinitial, hentries⟩ := Prod.mk.inj heq
    obtain ⟨fuel, hrespond⟩ := hanswered
    obtain ⟨⟨data, hdata, hcorresponds⟩, hpulls⟩ := failingFields.errors_correspond.1 fuel _ s₀ hrespond
    obtain rfl : initial.data = data := Option.some.inj hdata
    refine ⟨initial, s₀, results, s', ⟨fuel, hrespond⟩, hall, hinitial, hcorresponds, ?_⟩
    have hmem : [some (Path.root.below [.key "p", .key "o", .key "must"])] ∈ results.flatMap fun result =>
        result.incremental.map fun entry => entry.errors.map Error.path := by
      rw [hentries]
      exact List.mem_singleton_self _
    obtain ⟨result, hresult, hmem⟩ := List.mem_flatMap.1 hmem
    obtain ⟨entry, hentry, herrors⟩ := List.mem_map.1 hmem
    exact ⟨result, hresult, entry, hentry, herrors, hpulls initial results s' rfl hall.pulls result hresult entry hentry⟩
  · have hrun : (missingField.respondNow.run missingField.stage).map (fun out =>
        (out.1.data, out.1.errors.map Error.path)) =
          some (some (.object [("o", .null)]), [some (Path.root.below [.key "o", .key "must"])]) := by
      decide +kernel
    obtain ⟨⟨response, s'⟩, hrun, heq⟩ := Option.map_eq_some_iff.1 hrun
    obtain ⟨hdata, herrors⟩ := Prod.mk.inj heq
    exact ⟨response, s', hrun, herrors, missingField.errors_correspond.2 response s' _ hrun hdata⟩

end GraphQL
