import GraphQL.Proofs.Execution.Pulls
import GraphQL.Proofs.Release.Ends
import GraphQL.Proofs.Requests

/-!
# Streams are released once

Between the tasks only the tasks and the hooks hold streams, up to the answer, within the pulls, and when the results are
cancelled.  Once a response is over no task is left, so no hook is armed either, and nothing is held: each stream that was
obtained was closed once or came to its end, and never both (`ExecutionContext.released_once`).  That it came to its end is
noted when its source is over or gives an error (`leads_takeItems_ends`, `leads_fetchItems_ends`).

Streams are told apart by the names that resolvers give them.  Names say nothing else, so a resolver may use the path of
the field as the name.  Of a name that was given once it follows that its stream was closed at most once, and that it was not
closed if it came to its end.
-/

namespace GraphQL

open Execution Stage

namespace Stage

variable {s s' : ExecStage} {names : List String} {running : List (StreamId × HookId)}

/-- Nothing but the tasks and the hooks holds streams. -/
abbrev InCustody (s : ExecStage) : Prop := s.Custody [] []

/-- Each stream that was obtained was closed once or came to its end. -/
def Released (s : ExecStage) : Prop :=
  ∀ name, s.log.count (.opened name) = s.log.count (.closed name) + s.log.count (.ended name)

/-- Without tasks no hook is armed. -/
theorem Custody.nothing_held (h : s.InCustody) (htasks : s.tasks = []) : s.held = [] ∧ s.Released := by
  have harmed : s.armedNames = [] := by
    refine List.eq_nil_iff_forall_not_mem.2 fun name hname => ?_
    obtain ⟨hook, hmem, rfl⟩ := List.mem_filterMap.1 hname
    obtain ⟨i, hi, heq⟩ := List.getElem_of_mem hmem
    obtain ⟨e, he, -⟩ := h.armed ⟨i⟩ name (Array.getElem?_eq_some_iff.2 ⟨hi, heq⟩)
    unfold fetching at he
    rw [htasks] at he
    exact absurd he (by simp)
  have hheld : s.held = [] := by
    unfold held
    rw [harmed, htasks]
    rfl
  refine ⟨hheld, fun name => ?_⟩
  have hname := h.balanced name
  rw [hheld] at hname
  simpa using hname

/-! ### The output -/

/-- All tasks that were taken are dropped. -/
theorem Custody.dropTaken (h : s.Custody names running) : s.dropTaken.Custody names running := by
  refine Custody.dropAll (s := { s with work := {} }) (h.take rfl rfl rfl ?_)
  exact List.Perm.of_eq (by simp [tasks, WorkSet.all])

/-- The tasks in the inbox are dropped. -/
theorem Custody.closeInbox (h : s.Custody names running) : s.closeInbox.Custody names running := by
  refine Custody.dropAll (h.take rfl rfl rfl ?_)
  show (s.work.ready ++ s.work.waiting ++ s.publisher.inbox).Perm
    (s.publisher.inbox ++ (s.work.ready ++ s.work.waiting ++ []))
  rw [List.append_nil]
  exact List.perm_append_comm

theorem work_dropTaken (s : ExecStage) : s.dropTaken.work = {} := (dropAll_beside _ _).work

theorem inbox_closeInbox (s : ExecStage) : s.closeInbox.publisher.inbox = [] :=
  congrArg Publisher.inbox (dropAll_beside _ _).publisher

/-- When the tasks that were taken are dropped, those in the inbox are left. -/
theorem tasks_dropTaken (s : ExecStage) : s.dropTaken.tasks = s.publisher.inbox := by
  unfold tasks
  rw [work_dropTaken, show s.dropTaken.publisher = s.publisher from (dropAll_beside _ _).publisher]
  rfl

/-- When the tasks in the inbox are dropped, those that were taken are left. -/
theorem tasks_closeInbox (s : ExecStage) : s.closeInbox.tasks = s.work.all := by
  unfold tasks
  rw [inbox_closeInbox, List.append_nil, show s.closeInbox.work = s.work from (dropAll_beside _ _).work]
  rfl

theorem Custody.finish (h : s.InCustody) : s.finish.InCustody := by
  have hclosed : s.dropTaken.close.InCustody := (h.dropTaken.closeStreams _).closeInbox
  exact ⟨hclosed.balanced, hclosed.linked, hclosed.armed⟩

theorem Custody.cancel (h : s.InCustody) : s.cancel.InCustody := by
  unfold Stage.cancel
  split
  · exact h
  · exact h.finish

theorem Custody.takeInbox (h : s.Custody names running) : s.takeInbox.Custody names running :=
  h.reorder rfl rfl rfl (tasks_takeInbox s)

theorem Custody.advanceTo (h : s.Custody names running) (time : Nat) : (s.advanceTo time).Custody names running :=
  h.reorder rfl rfl rfl (tasks_advanceTo s time)

end Stage

variable {c : ExecutionContext} {s s₀ : ExecStage} {names : List String} {running : List (StreamId × HookId)}

/-! ### Tasks -/

/-- A task that was taken is run, and waits with what it holds then. -/
theorem leads_runOne_custody (c : ExecutionContext) (fuel : Nat) {task : Task} (h : s.CustodyOf (some task) names running) :
    Leads (runOne (Task.run c fuel) task) s fun _ s' => s'.Custody names running := by
  unfold runOne
  refine Leads.andThen (leads_task_custody c fuel h) fun task? s₁ h₁ => ?_
  cases task? with
  | none => exact Leads.pure h₁
  | some task' =>
    refine Leads.bind (Leads.modify (Leads.pure (Custody.give task' h₁ rfl rfl rfl ?_)))
    show (s₁.work.ready ++ (s₁.work.waiting ++ [task']) ++ s₁.publisher.inbox).Perm
      (task' :: (s₁.work.ready ++ s₁.work.waiting ++ s₁.publisher.inbox))
    rw [← List.append_assoc, List.append_assoc _ [task']]
    exact List.perm_middle

/-- A task that can run is taken by what runs. -/
theorem Stage.Custody.withReady {task : Task} {rest : List Task} (h : s.Custody names running)
    (hready : s.work.ready = task :: rest) : (s.withReady rest).CustodyOf (some task) names running := by
  have htaken : (s.withReady rest).Custody ([task].flatMap Task.openStreams ++ names)
      ([task].filterMap Task.fetching? ++ running) :=
    h.take rfl rfl rfl (tasks_withReady (List.Perm.of_eq hready))
  rw [List.flatMap_singleton] at htaken
  cases task <;> exact htaken

theorem leads_runReady_custody (c : ExecutionContext) (fuel count : Nat) (h : s.Custody names running) :
    Leads (runReady (Task.run c fuel) count) s fun _ s' => s'.Custody names running := by
  induction count generalizing s with
  | zero => exact Leads.pure h
  | succ count ih =>
    unfold runReady
    refine Leads.bind (leads_takeReady (fun _ => Leads.pure h) fun task rest hready => ?_)
    exact Leads.andThen (leads_runOne_custody c fuel (h.withReady hready)) fun _ s₁ h₁ => ih h₁

theorem leads_runUntilDone_custody (c : ExecutionContext) (fuel count : Nat) (h : s.Custody names running) :
    Leads (runUntilDone (Task.run c fuel) count) s fun _ s' => s'.Custody names running := by
  induction count generalizing s with
  | zero => exact Leads.pure h
  | succ count ih =>
    unfold runUntilDone
    refine Leads.bind (leads_takeReady (fun _ => Leads.pure h) fun task rest hready => ?_)
    refine Leads.andThen (leads_runOne_custody c fuel (h.withReady hready)) fun done s₁ h₁ => ?_
    split
    · exact Leads.pure h₁
    · exact ih h₁

/-! ### The answer -/

theorem leads_beginOperation_custody (c : ExecutionContext) (h : s.InCustody) :
    Leads (beginOperation c) s fun progress s' => s'.Custody progress.openStreams [] := by
  unfold beginOperation
  refine Leads.bind (Leads.get (Leads.bind (Leads.set ?_)))
  have h := h.memory { s.memory with collector := (s.memory.collector.collectFields c.collection c.rootType
    c.operation.selectionSet.selections).2 }
  split
  · exact Leads.pure h
  · rename_i collected _
    refine Leads.andThen (leads_addFragments .root .initial collected.newUsages [] h) fun deferMap s₁ h₁ => ?_
    refine Leads.andThen (leads_addFieldSets .root deferMap collected.newSets h₁) fun sets s₂ h₂ => ?_
    have hspawn : ∀ (data : Job) (s' : ExecStage), s'.Custody (data.openStreams ++ []) [] →
        Leads (do
          spawnFieldSets c ⟨c.rootType, c.rootValue, .root, collected.fields, .initial, deferMap⟩ sets
          return Progress.go data) s' fun progress s'' => s''.Custody progress.openStreams [] := by
      intro data s' h'
      rw [List.append_nil] at h'
      exact Leads.andThen (leads_spawnFieldSets c _ sets h') fun _ s'' h'' => Leads.pure h''
    dsimp only
    split
    · exact Leads.bind (Leads.pure (hspawn _ _ h₂))
    · exact Leads.andThen (leads_selectFields c _ h₂) hspawn

theorem leads_runInitial_custody (c : ExecutionContext) (fuel rounds : Nat) (job : Job) (h : s.Custody job.openStreams []) :
    Leads (runInitial c fuel rounds job) s fun ran s' => s'.Custody ran.openStreams [] := by
  induction rounds generalizing s job with
  | zero => exact Leads.failure
  | succ rounds ih =>
    unfold runInitial
    rw [← List.append_nil job.openStreams] at h
    refine Leads.andThen (passesOn_run c fuel job h) fun ran s₁ h₁ => ?_
    rw [List.append_nil] at h₁
    cases ran with
    | done outcome => exact Leads.pure h₁
    | waiting job' =>
      refine Leads.bind (Leads.get (Leads.andThen (leads_runReady_custody c fuel _ h₁) fun _ s₂ h₂ => ?_))
      refine Leads.bind (Leads.get ?_)
      split
      · exact Leads.pure h₂
      · exact Leads.bind (Leads.modify (ih job' h₂.takeInbox))

/-- With a single response everything is dropped. -/
theorem leads_answer_custody (outcome : Except Error Json) (h : s.InCustody) :
    Leads (answer outcome) s fun a s' => s'.InCustody ∧ ∀ r, a = .single r → s'.tasks = [] := by
  refine Leads.modifyGet ?_
  cases outcome with
  | error e =>
    refine ⟨(h.dropTaken.withPublisher (.takeErrors _)).closeInbox, fun r _ => (tasks_closeInbox _).trans ?_⟩
    exact congrArg WorkSet.all (work_dropTaken s)
  | ok data =>
    have hpublished := h.withPublisher (.trans (.publishChildren s.publisher .initial) (.takeErrors _))
    dsimp only [answerData]
    split
    · exact ⟨hpublished, fun r heq => absurd heq (by simp)⟩
    · exact ⟨hpublished.closeInbox.dropTaken, fun r _ => (tasks_dropTaken _).trans (inbox_closeInbox _)⟩

/-- The answer at the end of the initial data. -/
theorem leads_answerSome_custody (outcome : Except Error Json) (h : s.InCustody) :
    Leads (do return some (← answer outcome)) s fun a? s' =>
      s'.InCustody ∧ ((∀ initial, a? ≠ some (.incremental initial)) → s'.tasks = []) := by
  refine Leads.andThen (leads_answer_custody outcome h) fun a s₁ ⟨h₁, hsingle⟩ => Leads.pure ⟨h₁, fun hnot => ?_⟩
  cases a with
  | single r => exact hsingle r rfl
  | incremental initial => exact absurd rfl (hnot initial)

/-- An execution that waits for its initial data is dropped with all that it holds. -/
theorem leads_dropInitial_custody (job : Job) (h : s.Custody job.openStreams []) :
    Leads (dropInitial job) s fun _ s' => s'.InCustody ∧ s'.tasks = [] := by
  rw [← List.append_nil job.openStreams] at h
  refine Leads.modify ⟨h.noteClosed.dropTaken.closeInbox, (tasks_closeInbox _).trans ?_⟩
  exact congrArg WorkSet.all (work_dropTaken _)

theorem leads_awaitAnswer_custody (c : ExecutionContext) (fuel rounds : Nat) (job : Job) (h : s.Custody job.openStreams []) :
    Leads (awaitAnswer c fuel rounds job) s fun a? s' =>
      s'.InCustody ∧ ((∀ initial, a? ≠ some (.incremental initial)) → s'.tasks = []) := by
  induction rounds generalizing s job with
  | zero => exact Leads.failure
  | succ rounds ih =>
    unfold awaitAnswer
    refine Leads.andThen (leads_runInitial_custody c fuel fuel job h) fun ran s₁ h₁ => ?_
    cases ran with
    | done outcome => exact leads_answerSome_custody outcome h₁
    | waiting job' =>
      refine Leads.bind (Leads.get ?_)
      split
      · rename_i time _
        exact Leads.bind (Leads.modify (ih job' (h₁.advanceTo time)))
      · exact Leads.andThen (leads_dropInitial_custody job' h₁) fun _ s₂ h₂ => Leads.pure ⟨h₂.1, fun _ => h₂.2⟩

theorem ExecutionContext.inCustody_stage (c : ExecutionContext) : c.stage.InCustody :=
  ⟨fun _ => rfl, fun _ he => absurd he (by simp [fetching, Stage.tasks, ExecutionContext.stage]),
    fun hook _ harmed => absurd harmed (by simp [ExecutionContext.stage])⟩

/-- Unless there is an initial result with more to come, nothing is left once there is an answer, or the execution is
stalled. -/
theorem leads_respondWith_custody (c : ExecutionContext) (fuel : Nat) :
    Leads (c.respondWith fuel) c.stage fun a? s' =>
      s'.InCustody ∧ ((∀ initial, a? ≠ some (.incremental initial)) → s'.tasks = []) := by
  refine Leads.andThen (leads_beginOperation_custody c c.inCustody_stage) fun progress s₁ h₁ => ?_
  cases progress with
  | done outcome => exact leads_answerSome_custody outcome h₁
  | go job => exact leads_awaitAnswer_custody c fuel fuel job h₁

/-- The response that is made, without letting time pass, of what the initial execution came to. -/
private theorem leads_response_custody (c : ExecutionContext) (ran : Ran) (h : s.Custody ran.openStreams [])
    (hmoves : Moves [] c.stage [] s) :
    Leads (match ran with
      | .waiting job => do
        dropInitial job
        return SyncError.notFinished.toResponse
      | .done outcome => do
        match ← answer outcome with
        | .single response => return response
        | .incremental _ =>
          modify Stage.cancel
          return SyncError.severalResults.toResponse) s fun _ s' => s'.InCustody ∧ s'.tasks = [] := by
  cases ran with
  | waiting job => exact Leads.andThen (leads_dropInitial_custody job h) fun _ s₁ h₁ => Leads.pure h₁
  | done outcome =>
    refine Leads.andThen (Leads.both (leads_answer_custody outcome h) (leads_answer outcome)) ?_
    rintro a s₁ ⟨⟨h₁, hsingle⟩, hanswers⟩
    cases a with
    | single r => exact Leads.pure ⟨h₁, hsingle r rfl⟩
    | incremental initial =>
      obtain ⟨s₂, hmoves₂, rfl, -⟩ := hanswers initial rfl
      refine Leads.bind (Leads.modify (Leads.pure ⟨h₁.cancel, ?_⟩))
      -- nothing ends the output before it is cancelled
      have hdone : (s₂.withPublisher (s₂.publisher.publishChildren .initial).takeErrors.1).outputDone = false :=
        (hmoves.trans hmoves₂).outputDone
      rw [Stage.cancel, if_neg (by simp [hdone])]
      exact (over_finish _).tasks

/-- Without letting time pass, nothing is left in any case. -/
theorem leads_respondNow_custody (c : ExecutionContext) :
    Leads c.respondNow c.stage fun _ s' => s'.InCustody ∧ s'.tasks = [] := by
  obtain ⟨hs, hhome⟩ := c.sound_stage
  unfold ExecutionContext.respondNow
  refine Leads.andThen (Leads.both (leads_beginOperation_custody c c.inCustody_stage) (works_beginOperation c hhome hs)) ?_
  rintro progress s₁ ⟨h₁, _, hmoves, rfl, hout⟩
  cases progress with
  | done outcome => exact Leads.bind (Leads.pure (leads_response_custody c (.done outcome) h₁ hmoves))
  | go job =>
    refine Leads.andThen (Leads.both (leads_runInitial_custody c _ _ job h₁)
      (leads_runInitial c _ _ (hmoves.sound hs) hout)) ?_
    rintro ran s₂ ⟨h₂, hmoves₂, -⟩
    exact leads_response_custody c ran h₂ (hmoves.trans hmoves₂)

/-! ### The results -/

/-- A consumer pulls results, with time passing, and cancels them, as often as it likes. -/
inductive Consumes (c : ExecutionContext) (s₀ : ExecStage) : ExecStage → Prop
  | start : Consumes c s₀ s₀
  | pull {s s' : ExecStage} {fuel rounds : Nat} {pulled : Pulled} (h : Consumes c s₀ s)
      (hpull : (Stage.pull (Task.run c fuel) rounds).run s = some (pulled, s')) : Consumes c s₀ s'
  | advance {s : ExecStage} (h : Consumes c s₀ s) (time : Nat) : Consumes c s₀ (s.advanceTo time)
  | cancel {s : ExecStage} (h : Consumes c s₀ s) : Consumes c s₀ s.cancel

theorem leads_pullOpen_custody (c : ExecutionContext) (fuel rounds : Nat) (h : s.InCustody) :
    Leads (pullOpen (Task.run c fuel) rounds) s fun _ s' => s'.InCustody := by
  induction rounds generalizing s with
  | zero => exact Leads.failure
  | succ rounds ih =>
    have hlook : s.takeInbox.look.InCustody := h.takeInbox.withPublisher (.nextResult? _)
    unfold pullOpen
    refine Leads.bind (Leads.modify (Leads.bind (Leads.get ?_)))
    dsimp only
    refine Leads.bind (Leads.set ?_)
    split
    · split
      · exact Leads.bind (Leads.modify (Leads.pure hlook.finish))
      · exact Leads.pure hlook
    · split
      · exact Leads.bind (Leads.modify (Leads.pure hlook.finish))
      · split
        · split
          · exact ih hlook
          · exact Leads.bind (Leads.modify (Leads.pure hlook.finish))
        · refine Leads.andThen (leads_runUntilDone_custody c fuel _ hlook) fun done s₁ h₁ => ?_
          split
          · exact ih h₁
          · refine Leads.bind (Leads.get ?_)
            split
            · exact ih h₁
            · exact Leads.pure h₁

theorem Consumes.inCustody (h : Consumes c s₀ s) (h₀ : s₀.InCustody) : s.InCustody := by
  induction h with
  | start => exact h₀
  | pull _ hpull ih =>
    rw [pull_eq] at hpull
    split at hpull
    · cases hpull
      exact ih
    · exact leads_pullOpen_custody c _ _ ih _ _ hpull
  | advance _ time ih => exact ih.advanceTo time
  | cancel _ ih => exact ih.cancel

/-- Pulls that have come to the end leave no tasks. -/
theorem Pulls.tasks {results : List SubsequentResult} (h : Pulls c s₀ results s) (h₀ : Sound [] s₀)
    (hdone : s₀.outputDone = false) (hpending : s₀.publisher.pending ≠ []) (hover : s.outputDone = true) : s.tasks = [] := by
  obtain ⟨looks, s₁, -, -, hstands⟩ := h.course h₀ hdone hpending
  cases hstands with
  | going _ hdone => exact absurd hover (by simp [hdone])
  | last hends => exact hends.tasks
  | stalled hends => exact hends.tasks

/-- A consumer that has cancelled the results, or has got them all, finds no tasks left. -/
theorem Consumes.tasks (h : Consumes c s₀ s) (h₀ : Sound [] s₀) (hdone : s₀.outputDone = false)
    (hpending : s₀.publisher.pending ≠ []) (hover : s.outputDone = true) : s.tasks = [] := by
  have hgoing : (∃ results, Pulls c s₀ results s) ∨ s.tasks = [] ∧ s.outputDone = true := by
    clear hover
    induction h with
    | start => exact .inl ⟨[], .start⟩
    | pull _ hpull ih =>
      rcases ih with ⟨results, hpulls⟩ | ⟨htasks, hover⟩
      · exact .inl ⟨_, hpulls.pull hpull⟩
      · rw [pull_eq, if_pos hover] at hpull
        cases hpull
        exact .inr ⟨htasks, hover⟩
    | @advance s _ time ih =>
      refine ih.imp (fun ⟨results, hpulls⟩ => ⟨results, hpulls.advance time⟩) fun ⟨htasks, hover⟩ => ⟨?_, hover⟩
      have hperm := tasks_advanceTo s time
      rw [htasks] at hperm
      exact hperm.eq_nil
    | cancel _ ih =>
      refine .inr ?_
      unfold Stage.cancel
      split
      · rename_i hover
        exact ⟨ih.elim (fun ⟨_, hpulls⟩ => hpulls.tasks h₀ hdone hpending hover) And.left, hover⟩
      · exact ⟨(over_finish _).tasks, (over_finish _).outputDone⟩
  exact hgoing.elim (fun ⟨_, hpulls⟩ => hpulls.tasks h₀ hdone hpending hover) And.left

/-- Streams are released once.  At any time while the results are consumed, each stream that was obtained was closed, came
to its end, or is still held; and nothing is held any more once the response is over: after a single response, when the
execution is stalled, after the last result, and when the results were cancelled. -/
theorem ExecutionContext.released_once (c : ExecutionContext) :
    (∀ fuel a? s₀, (c.respondWith fuel).run c.stage = some (a?, s₀) →
      match a? with
      | some (.incremental _) => ∀ s, Consumes c s₀ s →
        (∀ name, s.log.count (.opened name) = s.log.count (.closed name) + s.log.count (.ended name) + s.held.count name) ∧
          (s.outputDone = true → s.Released)
      | _ => s₀.Released) ∧
    ∀ r s, c.respondNow.run c.stage = some (r, s) → s.Released := by
  refine ⟨fun fuel a? s₀ hrun => ?_, fun r s hrun => ?_⟩
  · obtain ⟨h₀, hover⟩ := leads_respondWith_custody c fuel _ _ hrun
    split
    · rename_i initial
      obtain ⟨hsound, hdone, -, hpending⟩ := ExecutionContext.Answered.sound ⟨fuel, hrun⟩
      intro s hconsumes
      have h := hconsumes.inCustody h₀
      refine ⟨fun name => ?_, fun hend => (h.nothing_held (hconsumes.tasks hsound hdone hpending hend)).2⟩
      simpa using h.balanced name
    · rename_i hnot
      exact (h₀.nothing_held (hover hnot)).2
  · obtain ⟨h, htasks⟩ := leads_respondNow_custody c _ _ hrun
    exact (h.nothing_held htasks).2

/-- Two lists whose items are streamed: the source of the one never ends, and that of the other ends after an item. -/
def openAndEnded : ExecutionContext :=
  .ofSelections [.ofFields "Query" [("a", .list (.named "String")), ("b", .list (.named "String"))]]
    [("Query.a", { resolve := fun _ => .ok (.stream { steps := [], hangs := true, armed := some "a" }) }),
      ("Query.b", { resolve := fun _ => .ok (.stream { steps := [.item (.ok (.value (.string "x")))], armed := some "b" }) })]
    (.object []) [.streamed "a", .streamed "b"]

/-- A consumer of `openAndEnded` cancels after a result. -/
theorem released_when_cancelled : ∃ initial s₀ s,
    (openAndEnded.respondWith 10).run openAndEnded.stage = some (some (.incremental initial), s₀) ∧
      Consumes openAndEnded s₀ s ∧ s.held = ["a"] ∧ s.cancel.outputDone = true ∧ s.cancel.Released ∧
      s.cancel.log.contains (.closed "a") = true ∧ s.cancel.log.contains (.ended "b") = true := by
  have hrun : (((openAndEnded.respondWith 10).run openAndEnded.stage).bind fun p =>
      ((Stage.pull (Task.run openAndEnded 10) 10).run p.2).map fun q =>
        (match p.1 with
          | some (.incremental _) => true
          | _ => false, q.2.held, q.2.cancel.outputDone, q.2.cancel.log.contains (.closed "a"),
          q.2.cancel.log.contains (.ended "b"))) = some (true, ["a"], true, true, true) := by decide +kernel
  obtain ⟨⟨a?, s₀⟩, hanswer, hrun⟩ := Option.bind_eq_some_iff.1 hrun
  obtain ⟨⟨pulled, s⟩, hpull, hs⟩ := Option.map_eq_some_iff.1 hrun
  simp only [Prod.mk.injEq] at hs
  obtain ⟨hincremental, hheld, hdone, hclosed, hended⟩ := hs
  have hreleased := openAndEnded.released_once.1 10 a? s₀ hanswer
  split at hincremental
  · rename_i initial
    have hconsumes := Consumes.start.pull hpull
    exact ⟨initial, s₀, s, hanswer, hconsumes, hheld, hdone, (hreleased _ hconsumes.cancel).2 hdone, hclosed, hended⟩
  · exact absurd hincremental (by simp)

end GraphQL
