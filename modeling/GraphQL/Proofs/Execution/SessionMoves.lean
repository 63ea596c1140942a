import GraphQL.Execution.Session
import GraphQL.Proofs.Delivery.Results
import GraphQL.Proofs.Execution.Passage
import GraphQL.Proofs.Execution.RunMoves

/-!
# Sessions keep a task for each open record

Between the tasks, nothing is in hand: taking work from the inbox, looking for a result, running a task and moving the
clock forward all keep a task for each open record (`Stage.Sound []`), and so does everything up to the answer.
-/

namespace GraphQL

open Execution Stage

namespace Publisher.Alike

variable {p q : Publisher Task} {id : RecordId}

theorem isFieldSet (h : p.Alike q) (hid : p.IsFieldSet id) : q.IsFieldSet id := by
  obtain ⟨r, hr⟩ := hid
  obtain ⟨r', hr', -⟩ := h.symm.fieldSet hr
  exact ⟨r', hr'⟩

theorem isFragment (h : p.Alike q) (hid : p.IsFragment id) : q.IsFragment id := by
  obtain ⟨r, hr⟩ := hid
  exact ⟨r, h.symm.fragment hr⟩

theorem isHome (h : p.Alike q) (hid : p.IsHome id) : q.IsHome id := by
  obtain ⟨r, hr, hnot⟩ := hid
  obtain ⟨r', hr', -⟩ := h.record? hr
  refine ⟨r', hr', fun f heq => ?_⟩
  subst heq
  rw [h.fragment hr'] at hr
  exact hnot f (Option.some.inj hr).symm

theorem stream? (h : p.Alike q) (id : StreamId) : q.stream? id = p.stream? id := by
  unfold Publisher.stream?
  rw [h.streams]

theorem sites (h : p.Alike q) {job : Job} (hj : job.Sites (p.Serves id)) : job.Sites (q.Serves id) :=
  hj.imp fun _ _ hs => ⟨hs.record, h.isHome hs.home, fun e he => h.isFragment (hs.fragments e he)⟩

theorem accepts (h : p.Alike q) {task : Task} (ht : p.Accepts task) : q.Accepts task := by
  cases task with
  | fieldSet path id data => exact ⟨h.isFieldSet ht.1, h.sites ht.2⟩
  | item listPath id value =>
    obtain ⟨⟨r, s, hr, hc, hs, hp⟩, hsites⟩ := ht
    obtain ⟨r', hr', hstream, -, -, hc', -⟩ := h.symm.items hr
    exact ⟨⟨r', s, hr', hc'.symm.trans hc, by rw [h.stream?, ← hstream]; exact hs, hp⟩, h.sites hsites⟩
  | fetch f =>
    obtain ⟨⟨⟨r, hr, hrs, hc⟩, hlast⟩, s, hs, hp⟩ := ht
    obtain ⟨r', hr', hstream, -, -, hc', -⟩ := h.symm.items hr
    refine ⟨⟨⟨r', hr', hstream.symm.trans hrs, hc'.symm.trans hc⟩, fun other r₂ hr₂ hs₂ => ?_⟩, s, ?_, hp⟩
    · obtain ⟨r₁, hr₁, hstream₁, -, -, -, hf₁, -⟩ := h.items hr₂
      obtain ⟨hle, hf⟩ := hlast other r₁ hr₁ (hstream₁.symm.trans hs₂)
      exact ⟨hle, hf₁.trans hf⟩
    · rw [h.stream?]
      exact hs

theorem isCut (h : p.Alike q) {stream : StreamId} (hc : p.IsCut stream) : q.IsCut stream := by
  rcases hc with ⟨id, r, hr, hs, hf⟩ | ⟨s, hs, he⟩
  · obtain ⟨r', hr', hstream, -, -, -, -, hf'⟩ := h.symm.items hr
    exact Or.inl ⟨id, r', hr', hstream.symm.trans hs, hf'.symm.trans hf⟩
  · exact Or.inr ⟨s, by rw [h.stream?]; exact hs, he⟩

theorem unfinished (h : p.Alike q) {r' : Record} (hr' : q.record? id = some r') :
    ∃ r, p.record? id = some r ∧ r.unfinished = r'.unfinished := by
  obtain ⟨r, hr, hout⟩ := h.symm.record? hr'
  refine ⟨r, hr, ?_⟩
  cases r <;> cases r' <;> simp_all [Record.outline, Record.unfinished]

end Publisher.Alike

namespace Stage

variable {hand : List RecordId} {s s' : ExecStage}

/-- Only what is sent, pending and released changes. -/
theorem Sound.alike (h : Sound hand s) {q : Publisher Task} (hq : q.Sound) (ha : s.publisher.Alike q) :
    Sound hand (s.withPublisher q) := by
  have htasks : (s.withPublisher q).tasks = s.tasks := by
    show s.work.ready ++ s.work.waiting ++ q.inbox = _
    rw [ha.inbox]
    rfl
  have hawaited : (s.withPublisher q).awaited = s.awaited := congrArg (List.map Task.record) htasks
  refine ⟨ha.closed.trans h.closed, hq, by rw [hawaited]; exact h.nodup, fun id hid => ?_, fun task ht => ?_,
    fun id r hr set hset => ?_, fun id r hr hc => ?_⟩
  · rcases h.opened id hid with hset | ⟨r, hr, hc⟩
    · exact Or.inl (ha.isFieldSet hset)
    · obtain ⟨r', hr', -, -, -, hc', -⟩ := ha.symm.items hr
      exact Or.inr ⟨r', hr', hc'.symm.trans hc⟩
  · rw [htasks] at ht
    exact ha.accepts (h.accepts task ht)
  · obtain ⟨r₀, hr₀, heq⟩ := ha.unfinished hr
    rw [hawaited]
    exact h.unfinished id r₀ hr₀ set (by rw [heq]; exact hset)
  · obtain ⟨r₀, hr₀, hs₀, -, -, hc₀, -⟩ := ha.items hr
    rw [hawaited, hs₀]
    exact (h.items id r₀ hr₀ (hc₀.symm.trans hc)).imp_right ha.isCut

theorem tasks_takeInbox (s : ExecStage) : s.takeInbox.tasks.Perm s.tasks := by
  show (s.work.ready ++ s.publisher.inbox ++ s.work.waiting ++ []).Perm
    (s.work.ready ++ s.work.waiting ++ s.publisher.inbox)
  rw [List.append_nil, List.append_assoc, List.append_assoc]
  exact List.perm_append_comm.append_left _

theorem moves_takeInbox (hand : List RecordId) (s : ExecStage) : Moves hand s hand s.takeInbox :=
  .of_move (.reorder (List.Perm.refl _) ⟨rfl, rfl, rfl, rfl, rfl⟩ (tasks_takeInbox s) rfl)

/-- What waits is what is due, in its order, and what is not. -/
private theorem perm_dueFirst {α : Type} (now : Nat) (deadlines : α → List Deadline) (xs : List α) :
    (dueFirst now deadlines xs ++ xs.filter fun x => (firstDue? now (deadlines x)).isNone).Perm xs := by
  have hsorted : (dueFirst now deadlines xs).Perm (xs.filter fun x => (firstDue? now (deadlines x)).isSome) := by
    unfold dueFirst
    refine ((List.mergeSort_perm _ _).map _).trans (List.Perm.of_eq ?_)
    induction xs with
    | nil => rfl
    | cons x rest ih =>
      rw [List.filterMap_cons, List.filter_cons]
      cases hdue : firstDue? now (deadlines x) with
      | none => simpa using ih
      | some order => simpa using ih
  refine (hsorted.append_right _).trans ?_
  have hnot : (fun x => (firstDue? now (deadlines x)).isNone) = fun x => !(firstDue? now (deadlines x)).isSome := by
    funext x
    cases firstDue? now (deadlines x) <;> rfl
  rw [hnot]
  exact List.filter_append_perm _ _

theorem tasks_advanceTo (s : ExecStage) (time : Nat) : (s.advanceTo time).tasks.Perm s.tasks := by
  show (s.work.ready ++ dueFirst time Work.deadlines s.work.waiting ++
    s.work.waiting.filter (fun x => (firstDue? time (Work.deadlines x)).isNone) ++ s.publisher.inbox).Perm
    (s.work.ready ++ s.work.waiting ++ s.publisher.inbox)
  refine List.Perm.append_right _ ?_
  rw [List.append_assoc]
  exact (perm_dueFirst time Work.deadlines s.work.waiting).append_left _

theorem moves_advanceTo (hand : List RecordId) (s : ExecStage) (time : Nat) : Moves hand s hand (s.advanceTo time) :=
  .of_move (.reorder (List.Perm.refl _) ⟨rfl, rfl, rfl, rfl, rfl⟩ (tasks_advanceTo s time) rfl)

/-- The publisher is looked at for a result. -/
def look (s : ExecStage) : ExecStage := s.withPublisher s.publisher.nextResult?.1

theorem Sound.look (h : Sound hand s) : Sound hand s.look :=
  have hhandled := h.publisher.nextResult?
  h.alike hhandled.sound hhandled.alike

end Stage

/-! ### Tasks -/

section Tasks

variable {s : ExecStage}

/-- A task whose record is in hand is run. -/
theorem leads_runOne (c : ExecutionContext) (fuel : Nat) {task : Task} (h : Sound [task.record] s)
    (htask : s.publisher.Accepts task) :
    Leads (runOne (Task.run c fuel) task) s fun _ s' => Moves [task.record] s [] s' := by
  unfold runOne
  refine Leads.andThen (works_task c fuel htask h) ?_
  rintro task? s₁ ⟨hand', hmoves, hrests⟩
  cases task? with
  | none =>
    obtain rfl : hand' = [] := hrests
    exact Leads.pure hmoves
  | some task' =>
    obtain ⟨rfl, haccepts⟩ := hrests
    have hperm : (s₁.work.ready ++ (s₁.work.waiting ++ [task']) ++ s₁.publisher.inbox).Perm
        (task' :: (s₁.work.ready ++ s₁.work.waiting ++ s₁.publisher.inbox)) := by
      rw [← List.append_assoc, List.append_assoc _ [task']]
      exact List.perm_middle
    exact Leads.bind (Leads.modify (Leads.pure (hmoves.step (.rest haccepts (Publisher.Same.refl _) hperm rfl))))

/-- The stage with other tasks that can run. -/
def Stage.withReady (s : ExecStage) (rest : List Task) : ExecStage :=
  { s with work := { s.work with ready := rest } }

theorem Stage.tasks_withReady {task : Task} {rest : List Task} (hready : s.work.ready.Perm (task :: rest)) :
    s.tasks.Perm (task :: (s.withReady rest).tasks) :=
  (hready.append_right s.work.waiting).append_right s.publisher.inbox

/-- A task that can run is taken and run. -/
theorem moves_runOne (c : ExecutionContext) {fuel : Nat} {task : Task} {rest : List Task} {s' : ExecStage} {b : Bool}
    (h : Sound [] s) (hready : s.work.ready.Perm (task :: rest))
    (hrun : (runOne (Task.run c fuel) task).run (s.withReady rest) = some (b, s')) : Moves [] s [] s' := by
  have htasks := tasks_withReady hready
  have htake : Move [] s [task.record] (s.withReady rest) := .take ⟨rfl, rfl, rfl, rfl, rfl⟩ htasks rfl
  have hs := htake.sound h
  have htask : (s.withReady rest).publisher.Accepts task := h.accepts task (htasks.mem_iff.2 List.mem_cons_self)
  exact (Moves.of_move htake).trans (leads_runOne c fuel hs htask _ _ hrun)

theorem leads_takeReady {Q : Option Task → ExecStage → Prop} (hnone : s.work.ready = [] → Q none s)
    (hsome : ∀ task rest, s.work.ready = task :: rest → Q (some task) (s.withReady rest)) :
    Leads takeReady s Q := by
  refine Leads.bind (Leads.get ?_)
  split
  · exact Leads.pure (hnone ‹_›)
  · exact Leads.bind (Leads.set (Leads.pure (hsome _ _ ‹_›)))

theorem leads_runReady (c : ExecutionContext) (fuel count : Nat) (h : Sound [] s) :
    Leads (runReady (Task.run c fuel) count) s fun _ s' => Moves [] s [] s' := by
  induction count generalizing s with
  | zero => exact Leads.pure Moves.refl
  | succ count ih =>
    unfold runReady
    refine Leads.bind (leads_takeReady (fun _ => Leads.pure Moves.refl) fun task rest hready => Leads.bind ?_)
    intro b s₁ hrun
    have hmoves := moves_runOne c h (List.Perm.of_eq hready) hrun
    exact (ih (hmoves.sound h)).imp fun _ s₂ hmoves₂ => hmoves.trans hmoves₂

end Tasks

/-! ### Up to the answer -/

section Answer

variable {s : ExecStage}

theorem works_beginOperation (c : ExecutionContext) (hid : s.publisher.IsHome .initial) {hand : List RecordId} :
    Works (beginOperation c) hand s fun out hand' s' => hand' = hand ∧ out.Sites (s'.publisher.Serves .initial) := by
  unfold beginOperation
  refine Works.get_bind ?_
  dsimp only
  refine Works.set_bind ⟨rfl, rfl, rfl⟩ ?_
  split
  · exact Works.pure ⟨rfl, trivial⟩
  · rename_i collected _
    refine Works.bind (works_addFragments .root collected.newUsages hid.lt_size (by simp)) ?_
    rintro deferMap _ s₁ hg₁ ⟨rfl, hmap⟩
    refine Works.bind (works_addFieldSets .root collected.newSets hmap) ?_
    rintro sets hand' s₂ hg₂ ⟨hperm, hsets⟩
    have ho : s₂.publisher.Serves .initial .initial deferMap :=
      ⟨rfl, hg₂.isHome (hg₁.isHome hid), fun e he => hg₂.isFragment (hmap e he)⟩
    refine Works.perm hperm ?_
    split
    · exact works_goOn c (fun P ho => Quiet.pure ho) ho hsets
    · exact works_goOn c (fun P ho => quiet_selectFields c ho) ho hsets

theorem leads_runInitial (c : ExecutionContext) (fuel rounds : Nat) {job : Job} (h : Sound [] s)
    (hjob : job.Sites (s.publisher.Serves .initial)) :
    Leads (runInitial c fuel rounds job) s fun out s' => Moves [] s [] s' ∧ out.Sites (s'.publisher.Serves .initial) := by
  induction rounds generalizing job s with
  | zero => exact Leads.failure
  | succ rounds ih =>
    unfold runInitial
    refine Leads.andThen (works_run c fuel job hjob h) ?_
    rintro out s₁ ⟨_, hmoves, rfl, hout⟩
    have hs₁ := hmoves.sound h
    cases out with
    | done outcome => exact Leads.pure ⟨hmoves, trivial⟩
    | waiting job' =>
      refine Leads.bind (Leads.get (Leads.andThen (leads_runReady c fuel _ hs₁) fun _ s₂ hmoves₂ => ?_))
      have hs₂ := hmoves₂.sound hs₁
      have hout₂ := hmoves₂.grows.sites hout
      refine Leads.bind (Leads.get ?_)
      split
      · exact Leads.pure ⟨hmoves.trans hmoves₂, hout₂⟩
      · refine Leads.bind (Leads.modify ?_)
        have hmoves₃ := moves_takeInbox [] s₂
        refine (ih (hmoves₃.sound hs₂) (hmoves₃.grows.sites hout₂)).imp fun out s₄ ⟨hmoves₄, hout₄⟩ => ⟨?_, hout₄⟩
        exact (hmoves.trans hmoves₂).trans (hmoves₃.trans hmoves₄)

/-- The stage with an initial result that has more to come: the moves before the answer have led to a stage, the
children of the initial result are pending after it, and its errors are taken. -/
def Stage.Answers (s : ExecStage) (initial : InitialResult) (s' : ExecStage) : Prop :=
  ∃ s₁, Moves [] s [] s₁ ∧ s' = s₁.withPublisher (s₁.publisher.publishChildren .initial).takeErrors.1 ∧
    initial.hasNext = true ∧ s'.publisher.pending ≠ []

theorem leads_answer (outcome : Except Error Json) :
    Leads (answer outcome) s fun a s' => ∀ initial, a = .incremental initial → s.Answers initial s' := by
  refine Leads.modifyGet ?_
  cases outcome with
  | error e => exact fun initial heq => absurd heq (by simp [answerError])
  | ok data =>
    intro initial heq
    dsimp only [answerData] at heq ⊢
    split at heq
    · cases heq
      rename_i hpending
      rw [if_pos hpending]
      refine ⟨s, Moves.refl, rfl, rfl, ?_⟩
      simpa [Publisher.hasPending] using hpending
    · exact absurd heq (by simp)

theorem leads_awaitAnswer (c : ExecutionContext) (fuel rounds : Nat) {job : Job} (h : Sound [] s)
    (hjob : job.Sites (s.publisher.Serves .initial)) :
    Leads (awaitAnswer c fuel rounds job) s fun a? s' => ∀ initial, a? = some (.incremental initial) →
      s.Answers initial s' := by
  induction rounds generalizing job s with
  | zero => exact Leads.failure
  | succ rounds ih =>
    unfold awaitAnswer
    refine Leads.andThen (leads_runInitial c fuel fuel h hjob) fun out s₁ ⟨hmoves, hout⟩ => ?_
    have hs₁ := hmoves.sound h
    cases out with
    | done outcome =>
      refine Leads.andThen (leads_answer outcome) fun a s₂ ha => Leads.pure fun initial heq => ?_
      cases heq
      obtain ⟨s₃, hmoves₃, hrest⟩ := ha initial rfl
      exact ⟨s₃, hmoves.trans hmoves₃, hrest⟩
    | waiting job' =>
      refine Leads.bind (Leads.get ?_)
      split
      · rename_i time _
        refine Leads.bind (Leads.modify ?_)
        have hmoves₂ := moves_advanceTo [] s₁ time
        refine (ih (hmoves₂.sound hs₁) (hmoves₂.grows.sites hout)).imp fun a? s₂ ha initial heq => ?_
        obtain ⟨s₃, hmoves₃, hrest⟩ := ha initial heq
        exact ⟨s₃, (hmoves.trans hmoves₂).trans hmoves₃, hrest⟩
      · exact Leads.bind (Leads.modify (Leads.pure fun initial heq => absurd heq (by simp)))

end Answer

end GraphQL
