import GraphQL.Proofs.Execution.Pulls
import GraphQL.Proofs.Requests

/-!
# When a response ends without its last result

A response should end with a result that says that no other follows.  It ends without one exactly when a record is
*stranded*: it is pending and waits for items, but the stream was closed because something failed, so that no task is
left that could complete it.  Fragments are never stranded, and nothing that is pending ends the response in another way
(`Pulls.hasNext`).  A record that is stranded stays so (`Course.stranded`).

Records are stranded: a fragment is delivered as failed while another of its sets of fields, which has opened a stream,
goes on, and the failure of that set closes the stream whose items are pending by then (`stranded_after_late_failure`).
-/

namespace GraphQL

open Execution Stage

/-- The record is pending and waits for items of a stream that was closed, and no task is left to complete it. -/
structure Stage.Stranded (id : RecordId) (s : ExecStage) : Prop where
  pending : id ∈ s.publisher.pending
  idle : id ∉ s.awaited
  items : ∃ r, s.publisher.record? id = some (.items r) ∧ r.completed = false ∧ s.publisher.IsCut r.stream

namespace Stage

variable {s s' : ExecStage} {id : RecordId}

/-- Without tasks and results, whatever is pending is stranded. -/
theorem Sound.stranded (h : Sound [] s) (htasks : s.tasks = []) (hreleased : s.publisher.released = [])
    (hid : id ∈ s.publisher.pending) : s.Stranded id := by
  have hawaited : s.awaited = [] := by
    unfold awaited
    rw [htasks]
    rfl
  obtain ⟨r, hr, hdeliverable⟩ := h.publisher.prompt.deliverable id hid
  have hnot : ¬ r.Ready := by
    intro hready
    have hmem := h.publisher.prompt.ready id r hid hr hready
    rw [hreleased] at hmem
    exact absurd hmem (by simp)
  refine ⟨hid, by simp [hawaited], ?_⟩
  cases r with
  | initial => exact hdeliverable.elim
  | fieldSet => exact hdeliverable.elim
  | fragment r =>
    obtain ⟨hunfinished, -⟩ := not_or.1 hnot
    obtain ⟨set, hset⟩ := List.exists_mem_of_ne_nil _ hunfinished
    have hmem := h.unfinished id _ hr set hset
    rw [hawaited] at hmem
    exact absurd hmem (by simp)
  | items r =>
    have hc : r.completed = false := by simpa [Record.Ready] using hnot
    refine ⟨r, hr, hc, ?_⟩
    rcases h.items id r hr hc with hmem | hcut
    · rw [hawaited] at hmem
      exact absurd hmem (by simp)
    · exact hcut

/-- A record stays stranded if only the tasks are put in another order. -/
theorem Stranded.reorder (h : s.Stranded id) (hsame : s.publisher.Same s'.publisher) (hperm : s'.tasks.Perm s.tasks) :
    s'.Stranded id := by
  obtain ⟨r, hr, hc, hcut⟩ := h.items
  refine ⟨by rw [hsame.pending]; exact h.pending, fun hid => h.idle ((hperm.map _).mem_iff.1 hid), r, ?_, hc,
    (hsame.grows 0).isCut hcut⟩
  rw [hsame.record?]
  exact hr

theorem Stranded.look (h : s.Stranded id) (hs : Sound [] s) : s.look.Stranded id := by
  have hhandled := hs.publisher.nextResult?
  obtain ⟨r, hr, hc, hcut⟩ := h.items
  obtain ⟨r', hr', hstream, -, -, hc', -⟩ := hhandled.alike.symm.items hr
  refine ⟨(hhandled.pending id).2 (Or.inl ⟨h.pending, fun hid => ?_⟩), ?_, r', hr', hc'.symm.trans hc, ?_⟩
  · have hcompleted := hs.publisher.prompt.completed id r hid hr
    rw [hc] at hcompleted
    exact absurd hcompleted (by simp)
  · have htasks : s.look.awaited = s.awaited := by
      show (s.work.ready ++ s.work.waiting ++ s.publisher.nextResult?.1.inbox).map Task.record = _
      rw [hhandled.alike.inbox]
      rfl
    rw [htasks]
    exact h.idle
  · rw [← hstream]
    exact hhandled.alike.isCut hcut

theorem Stranded.moves (h : s.Stranded id) (hs : Sound [] s) (m : Moves [] s [] s') : s'.Stranded id := by
  have hpasses := m.passes hs
  obtain ⟨r, hr, hc, hcut⟩ := h.items
  have hlt := Publisher.lt_size_of_record? hr
  have hidle : id ∉ s.awaited ++ [] := by
    rw [List.append_nil]
    exact h.idle
  refine ⟨?_, fun hid => hidle (hpasses.opened id (List.mem_append_left _ hid) hlt), ?_⟩
  · rw [m.retains.pending]
    exact h.pending
  · obtain ⟨r', hr', hg⟩ := m.grows.records id _ hr
    cases hg with
    | @items _ r' hstream =>
      refine ⟨r', hr', ?_, by rw [hstream]; exact m.grows.isCut hcut⟩
      obtain ⟨r₀, hr₀, -, hcompleted, -⟩ := hpasses.items id r' hr' hlt
      obtain rfl : r = r₀ := by
        have heq := hr.symm.trans hr₀
        cases heq
        rfl
      cases hc' : r'.completed with
      | false => rfl
      | true =>
        rcases hcompleted hc' with hcompleted | hid
        · exact absurd (hc.symm.trans hcompleted) (by simp)
        · exact absurd hid hidle

end Stage

variable {c : ExecutionContext} {s₀ s : ExecStage} {looks : List (Publisher Task)}

/-- Nothing that happens later helps a record that is stranded. -/
theorem Course.stranded {id : RecordId} (h : Course c s₀ looks s) (h₀ : Sound [] s₀) (hid : s₀.Stranded id) :
    s.Stranded id :=
  (h.rec_moves (I := fun _ s => s.Stranded id) h₀ hid (fun _ _ _ hs hm ih => ih.moves hs hm)
    fun _ _ hs ih => ih.look hs).2

theorem Stage.Over.stranded_iff {s' : ExecStage} {id : RecordId} (h : s.Over s') (htasks : s.tasks = []) :
    s'.Stranded id ↔ s.Stranded id := by
  obtain ⟨hrecords, hstreams, hpending, -, htasks', -⟩ := h
  have hawaited : s'.awaited = s.awaited := by
    unfold awaited
    rw [htasks, htasks']
  have hrecord : s'.publisher.record? id = s.publisher.record? id := by
    unfold Publisher.record?
    rw [hrecords]
  have hcut : ∀ stream, s'.publisher.IsCut stream ↔ s.publisher.IsCut stream := by
    intro stream
    unfold Publisher.IsCut Publisher.record? Publisher.stream?
    rw [hrecords, hstreams]
  refine ⟨fun ⟨hid, hidle, hitems⟩ => ⟨hpending ▸ hid, hawaited ▸ hidle, ?_⟩,
    fun ⟨hid, hidle, hitems⟩ => ⟨hpending.symm ▸ hid, hawaited.symm ▸ hidle, ?_⟩⟩
  · simpa only [hrecord, hcut] using hitems
  · simpa only [hrecord, hcut] using hitems

/-- Nor does a pull help a record that is stranded. -/
theorem Pulls.stranded {results results' : List SubsequentResult} {s' : ExecStage} {id : RecordId}
    (h₀ : Sound [] s₀) (hdone : s₀.outputDone = false) (hpending : s₀.publisher.pending ≠ [])
    (h : Pulls c s₀ results s) (h' : Pulls c s results' s') (hid : s.Stranded id) : s'.Stranded id := by
  induction h' with
  | start => exact hid
  | advance _ time ih => exact ih.reorder ⟨rfl, rfl, rfl, rfl, rfl⟩ (tasks_advanceTo _ time)
  | @pull results' s₁ fuel rounds pulled s₂ h₁ hpull ih =>
    obtain ⟨looks, s₃, hcourse, -, hstands⟩ := (h.trans h₁).course h₀ hdone hpending
    rw [pull_eq] at hpull
    split at hpull
    · cases hpull
      exact ih
    · rename_i hnot
      cases hstands with
      | last hover => exact absurd hover.outputDone hnot
      | stalled hover => exact absurd hover.outputDone hnot
      | going hs _ hpending₁ =>
        subst hs
        obtain ⟨_, _, s₄, hturns, -, hends⟩ := leads_pullOpen fuel rounds (hcourse.sound h₀) hpending₁ _ _ hpull
        have hid₄ := hturns.course.stranded (hcourse.sound h₀) ih
        cases hends with
        | waiting => exact hid₄
        | more => exact hid₄
        | last _ hnil => exact absurd hid₄.pending (by simp [hnil])
        | stalled _ _ htasks => exact ((over_finish s₄).stranded_iff htasks).2 hid₄

/-- All results but the last say that more follows, and so does the last one as long as more can be pulled.  Once a pull
gives nothing, no pull gives anything; whatever is still pending then is stranded, and what was stranded before still is.
The last result has said that none follows exactly if no record is stranded. -/
theorem Pulls.hasNext {initial : InitialResult} {results : List SubsequentResult} (h₀ : c.Answered initial s₀)
    (h : Pulls c s₀ results s) :
    initial.hasNext = true ∧ (∀ r ∈ results.dropLast, r.hasNext = true) ∧
      (s.outputDone = false → ∀ r ∈ results, r.hasNext = true) ∧
      ∀ rest s', PullsAll c s rest s' →
        (∀ fuel rounds, (Stage.pull (Task.run c fuel) rounds).run s' = some (.ended, s')) ∧
        (∀ id ∈ s'.publisher.pending, s'.Stranded id) ∧
        (∀ id, s.Stranded id → s'.Stranded id) ∧
        ((∃ last, (results ++ rest).getLast? = some last ∧ last.hasNext = false) ↔ ∀ id, ¬ s'.Stranded id) := by
  obtain ⟨hs₀, hdone, hnext, hpending⟩ := h₀.sound
  refine ⟨hnext, ?_, ?_, fun rest s' hrest => ?_⟩
  · obtain ⟨looks, s₁, -, -, hstands⟩ := h.course hs₀ hdone hpending
    cases hstands with
    | going _ _ _ hmore => exact fun r hr => hmore r (List.dropLast_subset _ hr)
    | last _ _ hmore => exact hmore
    | stalled _ _ _ _ hmore => exact fun r hr => hmore r (List.dropLast_subset _ hr)
  · intro hopen
    obtain ⟨looks, s₁, -, -, hstands⟩ := h.course hs₀ hdone hpending
    cases hstands with
    | going _ _ _ hmore => exact hmore
    | last hover => exact absurd hover.outputDone (by simp [hopen])
    | stalled hover => exact absurd hover.outputDone (by simp [hopen])
  · have hall := h.all hrest
    have hover := hall.outputDone hs₀ hdone hpending
    have hkept : ∀ id, s.Stranded id → s'.Stranded id := fun id hid =>
      Pulls.stranded hs₀ hdone hpending h hrest.pulls hid
    refine ⟨fun fuel rounds => by rw [pull_eq, if_pos hover], ?_⟩
    obtain ⟨looks, s₁, hcourse, -, hstands⟩ := hall.pulls.course hs₀ hdone hpending
    cases hstands with
    | going _ hopen => exact absurd hover (by simp [hopen])
    | last hover hnone _ hlast =>
      have hnil : s'.publisher.pending = [] := hover.pending.trans hnone
      refine ⟨fun id hid => absurd hid (by simp [hnil]), hkept, fun _ id hid => ?_, fun _ => hlast⟩
      exact absurd hid.pending (by simp [hnil])
    | stalled hover hsome hreleased htasks hmore =>
      have hstranded : ∀ id ∈ s'.publisher.pending, s'.Stranded id := fun id hid =>
        (hover.stranded_iff htasks).2
          ((hcourse.sound hs₀).stranded htasks hreleased (hover.pending ▸ hid))
      refine ⟨hstranded, hkept, fun ⟨last, hlast, hno⟩ => ?_, fun hnone => ?_⟩
      · rw [hmore last (List.mem_of_getLast? hlast)] at hno
        exact absurd hno (by simp)
      · obtain ⟨id, hid⟩ := List.exists_mem_of_ne_nil _ hsome
        exact absurd (hstranded id (hover.pending.symm ▸ hid)) (hnone id)

/-! ### A record is stranded -/

/-- A fragment with two sets of fields at different places.  The set of `p` fails first, and with it the fragment; the
set of `q` has begun to stream a list by then, from a source that never ends, and fails later above the list. -/
def lateFailure : ExecutionContext :=
  .ofSelections
    [.ofFields "Query" [("p", .named "P"), ("q", .named "Q")],
      .ofFields "P" [("a", .named "String"), ("must", .nonNull (.named "String"))],
      .ofFields "Q" [("a", .named "String"), ("r", .named "R")],
      .ofFields "R" [("l", .list (.named "String")), ("must", .nonNull (.named "String"))]]
    [("P.must", { resolve := fun _ => .ok (.later none 1 (.error (.custom "no"))) }),
      ("R.l", { resolve := fun _ => .ok (.stream { steps := [], hangs := true }) }),
      ("R.must", { resolve := fun _ => .ok (.later none 5 (.error (.custom "late"))) })]
    (.object [("p", .object [("a", .string "1")]), ("q", .object [("a", .string "2"), ("r", .object [])])])
    [.named "p" [.named "a"], .named "q" [.named "a"],
      .deferred [.named "p" [.named "must"], .named "q" [.named "r" [.streamed "l", .named "must"]]]]

private theorem results_lateFailure : ∃ initial results s',
    (lateFailure.results 10).run lateFailure.stage = some (some (initial, results), s') ∧
      results.map SubsequentResult.hasNext = [true] := by
  have hrun : (((lateFailure.results 10).run lateFailure.stage).bind (·.1)).map
      (fun out => out.2.map SubsequentResult.hasNext) = some [true] := by decide +kernel
  obtain ⟨out, hout, hnext⟩ := Option.map_eq_some_iff.1 hrun
  obtain ⟨⟨out?, s'⟩, hrun', rfl⟩ := Option.bind_eq_some_iff.1 hout
  exact ⟨out.1, out.2, s', hrun', hnext⟩

/-- The response of `lateFailure` ends after a result that says that more follows. -/
theorem no_last_result_after_late_failure : ∃ initial s₀ results s', lateFailure.Answered initial s₀ ∧
    PullsAll lateFailure s₀ results s' ∧ ∃ last, results.getLast? = some last ∧ last.hasNext = true := by
  obtain ⟨initial, results, s', hrun, hnext⟩ := results_lateFailure
  obtain ⟨s₀, hanswered, hall⟩ := ExecutionContext.pullsAll_of_results hrun
  obtain ⟨last, rfl, htrue⟩ := List.map_eq_singleton_iff.1 hnext
  exact ⟨initial, s₀, _, s', hanswered, hall, last, rfl, htrue⟩

/-- A record is stranded at the end of the response of `lateFailure`. -/
theorem stranded_after_late_failure : ∃ initial s₀ results s', lateFailure.Answered initial s₀ ∧
    PullsAll lateFailure s₀ results s' ∧ ∃ id, s'.Stranded id := by
  obtain ⟨initial, results, s', hrun, hnext⟩ := results_lateFailure
  obtain ⟨s₀, hanswered, hall⟩ := ExecutionContext.pullsAll_of_results hrun
  obtain ⟨last, rfl, htrue⟩ := List.map_eq_singleton_iff.1 hnext
  refine ⟨initial, s₀, _, s', hanswered, hall, ?_⟩
  obtain ⟨-, -, -, hended⟩ := Pulls.hasNext hanswered Pulls.start
  obtain ⟨-, -, -, hiff⟩ := hended _ s' hall
  by_contra hnone
  obtain ⟨last', hlast', hno⟩ := hiff.2 fun id hid => hnone ⟨id, hid⟩
  obtain rfl : last = last' := Option.some.inj hlast'
  rw [htrue] at hno
  exact absurd hno (by simp)

end GraphQL
