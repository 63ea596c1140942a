import GraphQL.Proofs.Execution.Course

/-!
# Pulls follow a course

A pull runs tasks and looks at the publisher until there is a result, until nothing can run before time goes on, or
until nothing is left to run at all.  So what a pull does is a part of the course (`leads_pullOpen`), and the results
that were pulled are those of the publishers that were looked at (`Pulls.turns`).  Tasks run only after a look that gives
nothing, and none runs any more once one of them is done (`Turns`).  Once the output is over, nothing changes any more.
-/

namespace GraphQL

open Execution Stage

variable {c : ExecutionContext} {s₀ s : ExecStage} {looks : List (Publisher Task)}

namespace Stage

private theorem work_closeStreams (ids : List StreamId) (h : s.work = {}) : (s.closeStreams ids).work = {} := by
  induction ids generalizing s with
  | nil => exact h
  | cons id rest ih =>
    refine ih (s := s.closeStream id) ?_
    obtain ⟨hw, -⟩ := tasks_fireAny s ((s.publisher.stream? id).bind StreamRecord.hook)
    show WorkSet.filter _ _ = _
    rw [hw, h]
    rfl

theorem dropAll_beside (s : ExecStage) (tasks : List Task) : s.Beside (s.dropAll tasks) :=
  List.foldlRecOn (motive := s.Beside) tasks _ (Beside.refl s) fun u hu task _ => hu.trans (dropWork_beside u task)

/-- What is left of an output that is over: the records and streams are as they were, and no task is left. -/
structure Over (s s' : ExecStage) : Prop where
  records : s'.publisher.records = s.publisher.records
  streams : s'.publisher.streams = s.publisher.streams
  pending : s'.publisher.pending = s.publisher.pending
  released : s'.publisher.released = s.publisher.released
  tasks : s'.tasks = []
  outputDone : s'.outputDone = true

/-- At the end of the output all tasks are dropped. -/
theorem over_finish (s : ExecStage) : s.Over s.finish := by
  have htaken := dropAll_beside { s with work := {} } s.work.all
  have hp₀ : s.dropTaken.publisher = s.publisher := htaken.publisher
  have hw₀ : s.dropTaken.work = {} := htaken.work
  generalize hids : (List.range s.dropTaken.publisher.streams.size).map StreamId.mk = ids
  obtain ⟨-, hsame, -⟩ := closeStreams_eq s.dropTaken ids
  have hw₁ := work_closeStreams ids hw₀
  have hfinish : s.finish = { closeInbox (s.dropTaken.closeStreams ids) with outputDone := true } := by
    rw [← hids]
    rfl
  generalize s.dropTaken.closeStreams ids = t at hsame hw₁ hfinish
  rw [hp₀] at hsame
  have hinbox := dropAll_beside
    { t with publisher := { t.publisher with inbox := [], closed := true } } t.publisher.inbox
  have hp : s.finish.publisher = { t.publisher with inbox := [], closed := true } := by
    rw [hfinish]
    exact hinbox.publisher
  have hw : s.finish.work = {} := by
    rw [hfinish]
    exact hinbox.work.trans hw₁
  refine ⟨?_, ?_, ?_, ?_, ?_, by rw [hfinish]⟩
  · rw [hp]; exact hsame.records
  · rw [hp]; exact hsame.streams
  · rw [hp]; exact hsame.pending
  · rw [hp]; exact hsame.released
  · rw [Stage.tasks, hp, hw]; rfl

end Stage

/-- The results of publishers that are looked at. -/
def resultsOf (looks : List (Publisher Task)) : List SubsequentResult := looks.filterMap fun p => p.nextResult?.2

theorem resultsOf_append (xs ys : List (Publisher Task)) : resultsOf (xs ++ ys) = resultsOf xs ++ resultsOf ys :=
  List.filterMap_append

theorem resultsOf_singleton (p : Publisher Task) : resultsOf [p] = p.nextResult?.2.toList := by
  unfold resultsOf
  cases hr : p.nextResult?.2 <;> simp [hr]

/-! ### One pull -/

/-- How a pull ends that has followed the course up to a stage. -/
inductive Ends (s : ExecStage) : Pulled → ExecStage → Prop
  | waiting (h : s.publisher.pending ≠ []) : Ends s .waiting s
  | more {r : SubsequentResult} (hnext : r.hasNext = true) (h : s.publisher.pending ≠ []) : Ends s (.result r) s
  | last {r : SubsequentResult} (hnext : r.hasNext = false) (h : s.publisher.pending = []) :
      Ends s (.result r) s.finish
  | stalled (h : s.publisher.pending ≠ []) (hreleased : s.publisher.released = []) (htasks : s.tasks = []) :
      Ends s .ended s.finish

theorem leads_runUntilDone (fuel count : Nat) (h : Turns c s₀ true looks s) (h₀ : Sound [] s₀) :
    Leads (runUntilDone (Task.run c fuel) count) s fun _ s' => ∃ free, Turns c s₀ free looks s' ∧
      s'.publisher.pending = s.publisher.pending := by
  induction count generalizing s with
  | zero => exact Leads.pure ⟨_, h, rfl⟩
  | succ count ih =>
    unfold runUntilDone
    refine Leads.bind (leads_takeReady (fun _ => Leads.pure ⟨_, h, rfl⟩) fun task rest hready => Leads.bind ?_)
    intro done s₁ hrun
    have hready := List.Perm.of_eq hready
    have h₁ := h.work hready hrun
    have hpending := (moves_runOne c (h.course.sound h₀) hready hrun).retains.pending
    cases done with
    | true => exact Leads.pure ⟨_, h₁, hpending⟩
    | false =>
      refine (ih h₁).imp ?_
      rintro _ s₂ ⟨free, h₂, hpending₂⟩
      exact ⟨free, h₂, hpending₂.trans hpending⟩

/-- A pull takes turns, with looks that give what it gives. -/
theorem leads_pullOpen (fuel rounds : Nat) (hs : Sound [] s) (hpending : s.publisher.pending ≠ []) :
    Leads (pullOpen (Task.run c fuel) rounds) s fun pulled s' => ∃ free looks s₁, Turns c s free looks s₁ ∧
      resultsOf looks = pulled.result?.toList ∧ Ends s₁ pulled s' := by
  induction rounds generalizing s with
  | zero => exact Leads.failure
  | succ rounds ih =>
    have hhandled := ((moves_takeInbox [] s).sound hs).publisher.nextResult?
    have hinbox : Turns c s false [] s.takeInbox := Turns.start.inbox
    -- pulls that come after the look
    have hagain : ∀ {s₂ : ExecStage} {free : Bool}, s.takeInbox.publisher.nextResult?.2 = none →
        Turns c s free [s.takeInbox.publisher] s₂ → s₂.publisher.pending ≠ [] →
        Leads (pullOpen (Task.run c fuel) rounds) s₂ fun pulled s' => ∃ free looks s₁, Turns c s free looks s₁ ∧
          resultsOf looks = pulled.result?.toList ∧ Ends s₁ pulled s' := by
      intro s₂ free hnone h₂ hpending₂
      refine (ih (h₂.course.sound hs) hpending₂).imp ?_
      rintro pulled s' ⟨free', looks, s₃, h₃, hresults, hends⟩
      refine ⟨free', [s.takeInbox.publisher] ++ looks, s₃, h₂.trans h₃, ?_, hends⟩
      rw [resultsOf_append, resultsOf_singleton, hnone]
      exact hresults
    unfold pullOpen
    refine Leads.bind (Leads.modify (Leads.bind (Leads.get ?_)))
    dsimp only
    refine Leads.bind (Leads.set ?_)
    split
    · rename_i r hr
      have hlook := hinbox.told hr
      have hnext := hhandled.hasNext r hr
      have hresult : resultsOf [s.takeInbox.publisher] = [r] := by rw [resultsOf_singleton, hr]; rfl
      split
      · rename_i hlast
        have hfalse : r.hasNext = false := by simpa using hlast
        refine Leads.bind (Leads.modify (Leads.pure ⟨_, _, _, hlook, hresult, Ends.last hfalse ?_⟩))
        show s.takeInbox.publisher.nextResult?.1.pending = []
        simpa [hnext] using hfalse
      · rename_i hmore
        have htrue : r.hasNext = true := by simpa using hmore
        refine Leads.bind (Leads.pure (Leads.pure ⟨_, _, _, hlook, hresult, Ends.more htrue fun hnil => ?_⟩))
        have hempty : s.takeInbox.publisher.nextResult?.1.pending = [] := hnil
        rw [hnext, hempty] at htrue
        exact absurd htrue (by simp)
    · rename_i hnone
      have hlook := hinbox.silent hnone
      have hs₁ := hlook.course.sound hs
      have hpending₁ : s.takeInbox.look.publisher.pending ≠ [] := by
        by_cases hreleased : s.takeInbox.publisher.released = []
        · intro hnil
          have hid := List.eq_nil_iff_forall_not_mem.1 hnil
          refine hpending (List.eq_nil_iff_forall_not_mem.2 fun id hmem => hid id ?_)
          exact (hhandled.pending id).2 (Or.inl ⟨hmem, by simp [hreleased]⟩)
        · exact (hhandled.silent hnone).2 hreleased
      split
      · rename_i hnil
        have hempty : s.takeInbox.publisher.nextResult?.1.pending = [] := by
          simpa [Publisher.hasPending] using hnil
        exact absurd hempty hpending₁
      · split
        · rename_i hidle
          split
          · exact hagain hnone hlook hpending₁
          · rename_i hready
            refine Leads.bind (Leads.modify (Leads.pure ⟨_, _, _, hlook, ?_, Ends.stalled hpending₁ ?_ ?_⟩))
            · rw [List.nil_append, resultsOf_singleton, hnone]
              rfl
            · rw [Publisher.hasReady, Bool.or_eq_true, not_or] at hready
              have hnil : s.takeInbox.publisher.nextResult?.1.released = [] := by simpa using hready.1
              exact hnil
            · have hinbox : s.takeInbox.look.publisher.inbox = [] := hhandled.alike.inbox
              have hwork : s.takeInbox.work.ready = [] ∧ s.takeInbox.work.waiting = [] := by
                simpa [WorkSet.isEmpty] using hidle
              show s.takeInbox.work.ready ++ s.takeInbox.work.waiting ++ s.takeInbox.look.publisher.inbox = []
              rw [hinbox, hwork.1, hwork.2]
              rfl
        · refine Leads.andThen (leads_runUntilDone fuel _ hlook hs) ?_
          rintro done s₂ ⟨free, h₂, hrun⟩
          have hpending₂ : s₂.publisher.pending ≠ [] := by
            rw [hrun]
            exact hpending₁
          split
          · exact hagain hnone h₂ hpending₂
          · refine Leads.bind (Leads.get ?_)
            split
            · exact hagain hnone h₂ hpending₂
            · refine Leads.pure ⟨_, _, _, h₂, ?_, Ends.waiting hpending₂⟩
              rw [List.nil_append, resultsOf_singleton, hnone]
              rfl

/-! ### All pulls -/

/-- Where the pulls have come to: on the course, with all results of it, or past its end. -/
inductive Pulls.Stands (s : ExecStage) (results : List SubsequentResult) (s' : ExecStage) : Prop
  | going (hs : s' = s) (hdone : s'.outputDone = false) (hpending : s.publisher.pending ≠ [])
      (hnext : ∀ r ∈ results, r.hasNext = true)
  | last (hover : s.Over s') (hpending : s.publisher.pending = []) (hnext : ∀ r ∈ results.dropLast, r.hasNext = true)
      (hlast : ∃ r, results.getLast? = some r ∧ r.hasNext = false)
  | stalled (hover : s.Over s') (hpending : s.publisher.pending ≠ []) (hreleased : s.publisher.released = [])
      (htasks : s.tasks = []) (hnext : ∀ r ∈ results, r.hasNext = true)

theorem Pulls.trans {s' : ExecStage} {results results' : List SubsequentResult} (h : Pulls c s₀ results s)
    (h' : Pulls c s results' s') : Pulls c s₀ (results ++ results') s' := by
  induction h' with
  | start => rw [List.append_nil]; exact h
  | pull _ hpull ih => rw [← List.append_assoc]; exact ih.pull hpull
  | advance _ time ih => exact ih.advance time

theorem Stage.Over.advanceTo {s' : ExecStage} (h : s.Over s') (time : Nat) : s.Over (s'.advanceTo time) := by
  refine ⟨h.records, h.streams, h.pending, h.released, ?_, h.outputDone⟩
  have hperm := tasks_advanceTo s' time
  rw [h.tasks] at hperm
  exact hperm.eq_nil

theorem pull_eq (run : Runner Task Memory) (rounds : Nat) (s : ExecStage) :
    (pull run rounds).run s = if s.outputDone then some (.ended, s) else (pullOpen run rounds).run s := by
  show (if s.outputDone = true then pure Pulled.ended else pullOpen run rounds).run s = _
  split <;> rfl

/-- The pulls take turns, with looks whose results they give. -/
theorem Pulls.turns {results : List SubsequentResult} {s' : ExecStage} (h : Pulls c s₀ results s') (h₀ : Sound [] s₀)
    (hdone : s₀.outputDone = false) (hpending : s₀.publisher.pending ≠ []) :
    ∃ free looks s, Turns c s₀ free looks s ∧ resultsOf looks = results ∧ Pulls.Stands s results s' := by
  induction h with
  | start => exact ⟨false, [], s₀, .start, rfl, .going rfl hdone hpending (by simp)⟩
  | advance _ time ih =>
    obtain ⟨free, looks, s, hturns, hresults, hstands⟩ := ih
    cases hstands with
    | going hs hdone hpending hnext =>
      subst hs
      exact ⟨free, looks, _, hturns.advance time, hresults, .going rfl hdone hpending hnext⟩
    | last hover hpending hnext hlast =>
      exact ⟨free, looks, s, hturns, hresults, .last (hover.advanceTo time) hpending hnext hlast⟩
    | stalled hover hpending hreleased htasks hnext =>
      exact ⟨free, looks, s, hturns, hresults, .stalled (hover.advanceTo time) hpending hreleased htasks hnext⟩
  | @pull results s' fuel rounds pulled s'' _ hpull ih =>
    obtain ⟨free, looks, s, hturns, hresults, hstands⟩ := ih
    have hend : s'.outputDone = true → results ++ pulled.result?.toList = results ∧ s'' = s' := by
      intro hover
      rw [pull_eq, if_pos hover] at hpull
      cases hpull
      exact ⟨List.append_nil _, rfl⟩
    cases hstands with
    | going hs hdone hpending hnext =>
      subst hs
      rw [pull_eq, if_neg (by simp [hdone])] at hpull
      obtain ⟨free', looks', s₁, hturns', hresults', hends⟩ :=
        leads_pullOpen fuel rounds (hturns.course.sound h₀) hpending _ _ hpull
      have hdone₁ : s₁.outputDone = false := (hturns'.course.outputDone (hturns.course.sound h₀)).trans hdone
      refine ⟨free', looks ++ looks', s₁, hturns.trans hturns', by rw [resultsOf_append, hresults, hresults'], ?_⟩
      cases hends with
      | waiting hpending₁ => exact .going rfl hdone₁ hpending₁ (by simpa [Pulled.result?] using hnext)
      | more hmore hpending₁ =>
        refine .going rfl hdone₁ hpending₁ fun r hr => ?_
        rcases List.mem_append.1 hr with hr | hr
        · exact hnext r hr
        · exact List.mem_singleton.1 hr ▸ hmore
      | @last r hlast hpending₁ =>
        refine .last (over_finish s₁) hpending₁ ?_ ⟨r, List.getLast?_concat, hlast⟩
        rw [show (Pulled.result r).result?.toList = [r] from rfl, List.dropLast_concat]
        exact hnext
      | stalled hpending₁ hreleased htasks =>
        exact .stalled (over_finish s₁) hpending₁ hreleased htasks (by simpa [Pulled.result?] using hnext)
    | last hover hpending hnext hlast =>
      obtain ⟨heq, rfl⟩ := hend hover.outputDone
      rw [heq]
      exact ⟨free, looks, s, hturns, hresults, .last hover hpending hnext hlast⟩
    | stalled hover hpending hreleased htasks hnext =>
      obtain ⟨heq, rfl⟩ := hend hover.outputDone
      rw [heq]
      exact ⟨free, looks, s, hturns, hresults, .stalled hover hpending hreleased htasks hnext⟩

/-- The pulls follow a course, whose results they give. -/
theorem Pulls.course {results : List SubsequentResult} {s' : ExecStage} (h : Pulls c s₀ results s') (h₀ : Sound [] s₀)
    (hdone : s₀.outputDone = false) (hpending : s₀.publisher.pending ≠ []) :
    ∃ looks s, Course c s₀ looks s ∧ resultsOf looks = results ∧ Pulls.Stands s results s' := by
  obtain ⟨_, looks, s, hturns, hrest⟩ := h.turns h₀ hdone hpending
  exact ⟨looks, s, hturns.course, hrest⟩

/-! ### Sessions -/

/-- The pulls gave some results, and then a pull that gives nothing more has led to a stage. -/
def PullsAll (c : ExecutionContext) (s₀ : ExecStage) (results : List SubsequentResult) (s' : ExecStage) : Prop :=
  ∃ s fuel rounds, Pulls c s₀ results s ∧ (pull (Task.run c fuel) rounds).run s = some (.ended, s')

theorem PullsAll.pulls {results : List SubsequentResult} {s' : ExecStage} (h : PullsAll c s₀ results s') :
    Pulls c s₀ results s' := by
  obtain ⟨s, fuel, rounds, hpulls, hpull⟩ := h
  have h' := hpulls.pull hpull
  rw [show Pulled.ended.result?.toList = [] from rfl, List.append_nil] at h'
  exact h'

theorem Pulls.all {s' : ExecStage} {results results' : List SubsequentResult} (h : Pulls c s₀ results s)
    (h' : PullsAll c s results' s') : PullsAll c s₀ (results ++ results') s' := by
  obtain ⟨s₁, fuel, rounds, hpulls, hpull⟩ := h'
  exact ⟨s₁, fuel, rounds, h.trans hpulls, hpull⟩

/-- When a pull has given nothing more, the output is over. -/
theorem PullsAll.outputDone {results : List SubsequentResult} {s' : ExecStage} (h : PullsAll c s₀ results s')
    (h₀ : Sound [] s₀) (hdone : s₀.outputDone = false) (hpending : s₀.publisher.pending ≠ []) :
    s'.outputDone = true := by
  obtain ⟨s, fuel, rounds, hpulls, hpull⟩ := h
  obtain ⟨looks, s₁, hcourse, -, hstands⟩ := hpulls.course h₀ hdone hpending
  rw [pull_eq] at hpull
  split at hpull
  · cases hpull
    assumption
  · rename_i hnot
    cases hstands with
    | going hs _ hpending₁ =>
      subst hs
      obtain ⟨-, -, s₂, -, -, hends⟩ := leads_pullOpen fuel rounds (hcourse.sound h₀) hpending₁ _ _ hpull
      cases hends with
      | stalled => exact (over_finish s₂).outputDone
    | last hover => exact absurd hover.outputDone hnot
    | stalled hover => exact absurd hover.outputDone hnot

theorem leads_awaitResult (fuel rounds : Nat) {results : List SubsequentResult} (h : Pulls c s₀ results s) :
    Leads (awaitResult c fuel rounds) s fun pulled s' => (∀ r, pulled = .result r → Pulls c s₀ (results ++ [r]) s') ∧
      (pulled = .ended → PullsAll c s₀ results s') := by
  induction rounds generalizing s with
  | zero => exact Leads.failure
  | succ rounds ih =>
    unfold awaitResult
    refine Leads.bind fun pulled s' hpull => ?_
    have h' := h.pull hpull
    cases pulled with
    | waiting =>
      refine Leads.bind (Leads.get ?_)
      rw [show Pulled.waiting.result?.toList = [] from rfl, List.append_nil] at h'
      split
      · exact Leads.bind (Leads.modify (ih (h'.advance _)))
      · exact Leads.bind (Leads.modify (Leads.pure ⟨by simp, by simp⟩))
    | result r => exact Leads.pure ⟨fun r' heq => by cases heq; exact h', by simp⟩
    | ended => exact Leads.pure ⟨by simp, fun _ => ⟨s, fuel, fuel, h, hpull⟩⟩

/-- A session that comes to its end has pulled all its results. -/
theorem leads_remainingResults (count : Nat) {results : List SubsequentResult} (h : Pulls c s₀ results s) :
    Leads (c.remainingResults count) s fun rest s' => rest.2 = true → PullsAll c s₀ (results ++ rest.1) s' := by
  induction count generalizing s results with
  | zero => exact Leads.failure
  | succ count ih =>
    unfold ExecutionContext.remainingResults
    refine Leads.andThen (leads_awaitResult _ _ h) ?_
    rintro pulled s₁ ⟨hresult, hended⟩
    cases pulled with
    | ended => exact Leads.pure fun _ => by simpa using hended rfl
    | waiting => exact Leads.pure fun heq => absurd heq (by simp)
    | result r =>
      refine Leads.andThen (ih (hresult r rfl)) fun rest s₂ hrest => Leads.pure fun heq => ?_
      have hall := hrest heq
      rw [List.append_assoc] at hall
      exact hall

/-- The initial result of a session and all others, if it has more than one and comes to its end. -/
def ExecutionContext.results (c : ExecutionContext) (count : Nat) :
    ExecM (Option (InitialResult × List SubsequentResult)) := do
  match ← c.respond with
  | some (.incremental initial) =>
    let (results, ended) ← c.remainingResults count
    return if ended then some (initial, results) else none
  | _ => return none

/-- A session that comes to its end is answered, and its results are pulled. -/
theorem ExecutionContext.pullsAll_of_results {count : Nat} {initial : InitialResult} {results : List SubsequentResult}
    {s' : ExecStage} (h : (c.results count).run c.stage = some (some (initial, results), s')) :
    ∃ s₀, c.Answered initial s₀ ∧ PullsAll c s₀ results s' := by
  have hleads : Leads (c.results count) c.stage fun out s' => ∀ initial results, out = some (initial, results) →
      ∃ s₀, c.Answered initial s₀ ∧ PullsAll c s₀ results s' := by
    unfold ExecutionContext.results
    refine Leads.bind fun answer? s₀ hrespond => ?_
    dsimp only
    split
    · rename_i initial
      have hanswered : c.Answered initial s₀ := ⟨limit, hrespond⟩
      refine Leads.andThen (leads_remainingResults count Pulls.start) fun rest s₁ hrest => Leads.pure ?_
      intro initial' results heq
      split at heq
      · cases heq
        exact ⟨s₀, hanswered, hrest (by assumption)⟩
      · exact absurd heq (by simp)
    · exact Leads.pure fun _ _ heq => absurd heq (by simp)
  exact hleads _ _ h initial results rfl

/-- What is computed from the results of a session is so for an answer and the results pulled after it. -/
theorem ExecutionContext.pullsAll_of_map_results {count : Nat} {α : Type}
    {f : InitialResult × List SubsequentResult → α} {x : α}
    (h : (((c.results count).run c.stage).bind (·.1)).map f = some x) :
    ∃ initial s₀ results s', c.Answered initial s₀ ∧ PullsAll c s₀ results s' ∧ f (initial, results) = x := by
  obtain ⟨⟨initial, results⟩, hout, heq⟩ := Option.map_eq_some_iff.1 h
  obtain ⟨⟨out?, s'⟩, hrun, rfl⟩ := Option.bind_eq_some_iff.1 hout
  obtain ⟨s₀, hanswered, hall⟩ := pullsAll_of_results hrun
  exact ⟨initial, s₀, results, s', hanswered, hall, heq⟩

end GraphQL
