import GraphQL.Proofs.Execution.Initial
import GraphQL.Proofs.Meaning.TaskDeeds

/-!
# The initial data means what is asked for

Up to the answer, a ledger makes every stage clear: when the operation begins, whatever work goes on beside the initial
data, and while its job is run.  So whatever the initial data comes to, the fields of the operation may come to
(`ExecutionContext.settles_of_respondWith`), and the errors that were noted by then tell of what became null in it
(`ExecutionContext.reports_of_respondWith`).
-/

namespace GraphQL

open Execution Stage

variable {c : ExecutionContext} {l l' : Ledger} {s s' : ExecStage}

namespace Ledger.Clear

/-- The clock moves, or work is put in another order. -/
theorem reorder {hand : List RecordId} (h : l.Clear c hand s) (hsame : s.publisher.Same s'.publisher)
    (htasks : s'.tasks.Perm s.tasks) (hmemory : s'.memory = s.memory) (hdone : s'.outputDone = s.outputDone) :
    l.Later s l s' ∧ l.Clear c hand s' :=
  h.move_same (.reorder (List.Perm.refl _) hsame htasks hdone) (.of_eq (Publisher.noted_same hsame)) hmemory (fun _ htask => .inl (htasks.mem_iff.1 htask))
    (congrArg Array.size hsame.streams)

theorem takeInbox {hand : List RecordId} (h : l.Clear c hand s) : l.Later s l s.takeInbox ∧ l.Clear c hand s.takeInbox :=
  h.reorder ⟨rfl, rfl, rfl, rfl, rfl⟩ (tasks_takeInbox s) rfl rfl

theorem advanceTo {hand : List RecordId} (h : l.Clear c hand s) (time : Nat) :
    l.Later s l (s.advanceTo time) ∧ l.Clear c hand (s.advanceTo time) :=
  h.reorder ⟨rfl, rfl, rfl, rfl, rfl⟩ (tasks_advanceTo s time) rfl rfl

/-- A task that can run is taken. -/
theorem take (h : l.Clear c [] s) {task : Task} {rest : List Task} (hready : s.work.ready.Perm (task :: rest)) :
    l.Later s l (s.withReady rest) ∧ l.Clear c [task.record] (s.withReady rest) ∧ task.Meant c l (s.withReady rest) ∧
      (s.withReady rest).publisher.Accepts task := by
  have htasks := tasks_withReady hready
  have hmem := htasks.mem_iff.2 List.mem_cons_self
  have htake : Move [] s [task.record] (s.withReady rest) := .take ⟨rfl, rfl, rfl, rfl, rfl⟩ htasks rfl
  obtain ⟨hl, hc⟩ := h.move_same htake (.of_eq fun _ => rfl) rfl
    (fun t ht => .inl (htasks.mem_iff.2 (List.mem_cons_of_mem task ht))) rfl
  exact ⟨hl, hc, hl.task h.sound.publisher.linked (hl.noted _) (h.tasks task hmem), h.sound.accepts task hmem⟩

/-- A task that waits is put with the work that waits. -/
theorem rest {task : Task} (h : l.Clear c [task.record] s) (haccepts : s.publisher.Accepts task)
    (hmeant : task.Meant c l s) :
    l.Later s l { s with work := { s.work with waiting := s.work.waiting ++ [task] } } ∧
      l.Clear c [] { s with work := { s.work with waiting := s.work.waiting ++ [task] } } := by
  have hperm : (s.work.ready ++ (s.work.waiting ++ [task]) ++ s.publisher.inbox).Perm
      (task :: (s.work.ready ++ s.work.waiting ++ s.publisher.inbox)) := by
    rw [← List.append_assoc, List.append_assoc _ [task]]
    exact List.perm_middle
  have hrest : Move [task.record] s [] { s with work := { s.work with waiting := s.work.waiting ++ [task] } } :=
    .rest haccepts (Publisher.Same.refl _) hperm rfl
  refine h.move_same hrest (.of_eq fun _ => rfl) rfl (fun t ht => ?_) rfl
  rcases List.mem_cons.1 (hperm.mem_iff.1 ht) with rfl | ht
  · have hsame : l.Later s l { s with work := { s.work with waiting := s.work.waiting ++ [t] } } :=
      ⟨⟨⟨fun _ _ => rfl, fun _ _ => rfl, Publisher.Grows.refl _⟩, fun _ _ => rfl, Nat.le_refl _, Nat.le_refl _,
        fun h => h⟩, rfl, fun _ => List.Subset.refl _⟩
    exact .inr (hsame.task h.sound.publisher.linked (List.Subset.refl _) hmeant)
  · exact .inl ht

end Ledger.Clear

/-- Work that ran leaves the stage clear. -/
theorem Worked.later {hand rest : List RecordId} {task? : Option Task} (h : Worked c l hand s rest task? s') :
    ∃ l' hand', l.Later s l' s' ∧ l'.Clear c hand' s' ∧ Task.Remains c rest task? l' hand' s' := by
  cases h with
  | deeds _ hlater hclear hremains => exact ⟨_, _, hlater, hclear, hremains⟩
  | set _ hdone _ _ hlater hclear =>
    subst hdone
    exact ⟨_, _, hlater, hclear, rfl⟩

/-- A task that can run is taken and run. -/
theorem Ledger.Clear.runOne {fuel : Nat} {task : Task} {rest : List Task} {b : Bool} (h : l.Clear c [] s)
    (hready : s.work.ready.Perm (task :: rest))
    (hrun : (Stage.runOne (Task.run c fuel) task).run (s.withReady rest) = some (b, s')) :
    ∃ l', l.Later s l' s' ∧ l'.Clear c [] s' := by
  obtain ⟨hl, hc, hmeant, haccepts⟩ := h.take hready
  have hleads : Leads (Stage.runOne (Task.run c fuel) task) (s.withReady rest) fun _ s' =>
      ∃ l', l.Later s l' s' ∧ l'.Clear c [] s' := by
    unfold Stage.runOne
    refine Leads.andThen (leads_task c fuel hc haccepts hmeant) fun task? s₁ hworked => ?_
    obtain ⟨l₁, hand₁, hl₁, hc₁, hremains⟩ := hworked.later
    cases task? with
    | none =>
      obtain rfl : hand₁ = [] := hremains
      exact Leads.pure ⟨l₁, hl.trans hl₁, hc₁⟩
    | some task' =>
      obtain ⟨rfl, haccepts₁, hmeant₁⟩ := hremains
      obtain ⟨hl₂, hc₂⟩ := hc₁.rest haccepts₁ hmeant₁
      exact Leads.bind (Leads.modify (Leads.pure ⟨l₁, (hl.trans hl₁).trans hl₂, hc₂⟩))
  exact hleads _ _ hrun

/-- Without looks for results, a course leaves the stage clear. -/
theorem Course.clear (h : Course c s [] s') (hc : l.Clear c [] s) : ∃ l', l.Later s l' s' ∧ l'.Clear c [] s' := by
  generalize hlooks : ([] : List (Publisher Task)) = looks at h
  induction h with
  | start => exact ⟨l, .refl l s, hc⟩
  | inbox _ ih =>
    obtain ⟨l₁, hl₁, hc₁⟩ := ih hlooks
    obtain ⟨hl₂, hc₂⟩ := hc₁.takeInbox
    exact ⟨l₁, hl₁.trans hl₂, hc₂⟩
  | look => exact absurd hlooks (by simp)
  | work _ hready hrun ih =>
    obtain ⟨l₁, hl₁, hc₁⟩ := ih hlooks
    obtain ⟨l₂, hl₂, hc₂⟩ := hc₁.runOne hready hrun
    exact ⟨l₂, hl₁.trans hl₂, hc₂⟩
  | advance _ time ih =>
    obtain ⟨l₁, hl₁, hc₁⟩ := ih hlooks
    obtain ⟨hl₂, hc₂⟩ := hc₁.advanceTo time
    exact ⟨l₁, hl₁.trans hl₂, hc₂⟩

/-- The stage stays clear, and the outcome of the job of the initial data is one that it may come to if what was noted by
then is told. -/
theorem Completes.comes {job : Job} {out? : Option (Except Error Json)} (h : Completes c job s out? s')
    (hc : l.Clear c [] s) (hfit : job.Fit c l s .initial) (hpending : s.publisher.pending = []) :
    ∃ l', l.Later s l' s' ∧ l'.Clear c [] s' ∧ ∀ out, out? = some out →
      ∀ told, s'.publisher.Told .initial told → job.Comes c told (.out out) := by
  induction h generalizing l with
  | done h =>
    obtain ⟨l₁, _, -, hl₁, hc₁, rfl, -, hcomes⟩ := does_run c _ _ hfit (.inr hpending) hc _ _ h
    refine ⟨l₁, hl₁, hc₁, ?_⟩
    rintro _ ⟨⟩ told htold
    exact hcomes told htold _ rfl
  | waits h hcourse =>
    obtain ⟨l₁, _, -, hl₁, hc₁, rfl, -⟩ := does_run c _ _ hfit (.inr hpending) hc _ _ h
    obtain ⟨l₂, hl₂, hc₂⟩ := hcourse.clear hc₁
    exact ⟨l₂, hl₁.trans hl₂, hc₂, fun _ hout => absurd hout (by simp)⟩
  | again h hcourse _ ih =>
    obtain ⟨l₁, _, -, hl₁, hc₁, rfl, hmeant₁, hcomes⟩ := does_run c _ _ hfit (.inr hpending) hc _ _ h
    obtain ⟨l₂, hl₂, hc₂⟩ := hcourse.clear hc₁
    have hfit₁ := hfit.advance hl₁ hc.sound.publisher.linked hmeant₁ (hcomes _ fun _ _ => trivial)
    obtain ⟨l₃, hl₃, hc₃, hout⟩ := ih hc₂ (hfit₁.later hl₂ hc₁.sound.publisher.linked)
      ((hl₂.pending.trans hl₁.pending).trans hpending)
    exact ⟨l₃, (hl₁.trans hl₂).trans hl₃, hc₃, fun out heq told htold =>
      hcomes told (htold.before (hl₂.trans hl₃)) _ (hout out heq told htold)⟩

/-! ### The beginning -/

/-- Nothing is noted at first. -/
theorem ExecutionContext.noted_stage (c : ExecutionContext) (id : RecordId) : c.stage.publisher.noted id = [] := by
  obtain ⟨index⟩ := id
  cases index with
  | zero => rfl
  | succ index => rfl

/-- Nothing is to be known of the first stage. -/
theorem ExecutionContext.clear_stage (c : ExecutionContext) : ∃ l : Ledger, l.Clear c [] c.stage := by
  refine ⟨⟨fun _ => default, fun _ => ⟨default, ⟨default, default, .root⟩, ⟨[], true⟩, default⟩,
    fun _ => ⟨default, .null, .root, []⟩⟩, c.sound_stage.1, ⟨Nat.one_pos, fun _ _ _ h => ?_, fun _ _ h => ?_⟩,
    fun _ h => ?_, fun id e h => ?_, fun _ _ h => ?_⟩
  · exact absurd h List.not_mem_nil
  · exact absurd h List.not_mem_nil
  · exact absurd h List.not_mem_nil
  · rw [c.noted_stage] at h
    exact absurd h List.not_mem_nil
  · exact absurd h (by simp [Publisher.stream?, ExecutionContext.stage])

/-- Fields that are to be resolved one after the other come to what is asked for. -/
theorem ObjectFields.comes_serial (o : ObjectFields) (told : Error → Prop) (fate : Fate) :
    (Job.serial o [] none o.fields).Comes c told fate ↔ (c.asked o.selected).Comes c told fate := by
  unfold ExecutionContext.asked
  rw [comes_gather_iff, List.map_map]
  rfl

/-- The job stands for the fields of the initial data. -/
def ObjectFields.Stands (c : ExecutionContext) (o : ObjectFields) (job : Job) : Prop :=
  (∀ (l : Ledger) (s : ExecStage), l.CoversFields c s .initial o → job.Meant c l s .initial) ∧
    ∀ told fate, job.Comes c told fate → (c.asked o.selected).Comes c told fate

theorem does_beginOperation (c : ExecutionContext) {hand : List RecordId}
    (hinitial : ∃ r, s.publisher.record? .initial = some (.initial r)) (hpending : s.publisher.pending = [])
    (hcollector : s.memory.collector = {}) :
    Does c (beginOperation c) l hand s fun progress l' hand' s' => hand' = hand ∧ progress.Meant c l' s' .initial ∧
      match c.collected with
      | .error e => progress = .fail e.toError
      | .ok collected => ∀ told fate, progress.Comes c told fate →
        (c.asked (c.opening collected)).Comes c told fate := by
  refine Does.clear fun hc => ?_
  unfold beginOperation
  refine Does.get_bind ?_
  dsimp only
  obtain ⟨l₁, hcontinues, hexplains, hfound⟩ := hc.explains.collectFields
  refine Does.set_bind ⟨rfl, rfl, rfl⟩ hcontinues hexplains ?_
  have hcollected : c.collected =
      (s.memory.collector.collectFields c.collection c.rootType c.operation.selectionSet.selections).1 := by
    rw [hcollector]
    rfl
  rw [hcollected]
  have hroot : ∀ collected,
      (s.memory.collector.collectFields c.collection c.rootType c.operation.selectionSet.selections).1 = .ok collected →
      c.collected = .ok collected ∧
        ∀ fields ∈ collected.sets, c.FieldsAt { c.opening collected with fields := fields } :=
    fun collected heq => ⟨hcollected.trans heq, fun fields hfields => .root (hcollected.trans heq) hfields⟩
  have hpositive : 0 < s.memory.collector.nextUsage := hc.explains.positive
  generalize s.memory.collector.collectFields c.collection c.rootType c.operation.selectionSet.selections = outcome
    at hfound hroot ⊢
  obtain ⟨outcome, collector⟩ := outcome
  cases outcome with
  | error e => exact Does.pure ⟨rfl, trivial, rfl⟩
  | ok collected =>
    obtain ⟨hfits, hknown⟩ := hfound collected rfl
    obtain ⟨r, hr⟩ := hinitial
    have hset : ¬ s.publisher.IsFieldSet .initial := by
      rintro ⟨r', hr'⟩
      exact absurd (hr.symm.trans hr') (by simp)
    have hserves : s.publisher.Serves .initial .initial [] := ⟨rfl, ⟨_, hr, fun _ => nofun⟩, by simp⟩
    have hasks : l₁.Asks c s.publisher .initial (c.asked (c.opening collected)) := .initial hr (hroot collected rfl).1
    have hwithin := Ledger.Encloses.self hasks
    rw [Publisher.seat_initial hr] at hwithin
    have hroots : s.publisher.Roots .initial [.initial] [] := .start hset (by simp)
    have hfound : l₁.Found c { s with memory := { s.memory with collector := collector } } (c.opening collected)
        s.memory.collector.nextUsage [.initial] .initial collected :=
      ⟨hpositive, by simp, hfits, (hroot collected rfl).2, rfl, hknown⟩
    -- fields are resolved together or one after the other
    have hselect : ∀ o, Steady (selectFields c o) (o.Stands c) := fun o =>
      (steady_selectFields c o).imp fun job hjob => by
        subst hjob
        exact ⟨fun _ _ hcovers => hcovers.job, fun told fate hfate => (o.comes_job told fate).1 hfate⟩
    have hserial : ∀ o : ObjectFields, Steady (pure (.serial o [] none o.fields)) (o.Stands c) := fun o =>
      Steady.pure ⟨fun _ _ hcovers => hcovers, fun told fate hfate => (o.comes_serial told fate).1 hfate⟩
    have hstands : ∀ (o : ObjectFields) job, o.selected = c.opening collected → o.Stands c job →
        (∀ (l' : Ledger) (s' : ExecStage), l'.CoversFields c s' .initial o → job.Meant c l' s' .initial) ∧
        ∀ told fate, job.Comes c told fate → (c.asked (c.opening collected)).Comes c told fate :=
      fun o job ho hjob => ⟨hjob.1, fun told fate hfate => ho ▸ hjob.2 told fate hfate⟩
    dsimp only
    cases c.operation.kind with
    | mutation => exact does_found hfound hserves (.inr hpending) (fun _ => rfl) hroots hwithin hserial hstands
    | query => exact does_found hfound hserves (.inr hpending) (fun _ => rfl) hroots hwithin hselect hstands
    | subscription => exact does_found hfound hserves (.inr hpending) (fun _ => rfl) hroots hwithin hselect hstands

/-- The initial record stays. -/
theorem Ledger.Later.initial (h : l.Later c.stage l' s') : ∃ r, s'.publisher.record? .initial = some (.initial r) := by
  obtain ⟨r, hr, hg⟩ := h.grows.records .initial (.initial {}) rfl
  cases hg with
  | initial => exact ⟨_, hr⟩

/-- The job that an operation begins with may run. -/
theorem Job.Fit.of_begin {job : Job} {r : InitialRecord} (hr : s.publisher.record? .initial = some (.initial r))
    (hmeant : job.Meant c l s .initial)
    (h : match c.collected with
      | .error e => Progress.go job = .fail e.toError
      | .ok collected => ∀ told fate, (Progress.go job).Comes c told fate →
        (c.asked (c.opening collected)).Comes c told fate) : job.Fit c l s .initial := by
  refine ⟨hmeant, fun e he => ?_⟩
  cases hcollected : c.collected with
  | error _ =>
    rw [hcollected] at h
    exact absurd h (by simp [Progress.fail])
  | ok collected =>
    rw [hcollected] at h
    exact ⟨_, .initial hr hcollected, h _ _ he⟩

/-- Errors that are delivered tell of an outcome: what is asked for may come to it if no other errors became null, and each
of them may be noted there. -/
structure Asked.Reports (c : ExecutionContext) (a : Asked) (out : Except Error Json) (errors : List Error) : Prop where
  told : a.Comes c (· ∈ errors) (.out out)
  noted : ∀ e ∈ errors, a.Comes c (fun _ => True) (.note e)

/-- The initial record holds errors that tell of an outcome of the operation; if no fields are collected there are none. -/
def ExecutionContext.Reports (c : ExecutionContext) (out : Except Error Json) (p : Publisher Task) : Prop :=
  ∃ r, p.record? .initial = some (.initial r) ∧
    match c.collected with
    | .error e => out = .error e.toError ∧ r.errors = []
    | .ok collected => (c.asked (c.opening collected)).Reports c out r.errors

/-- The errors that were noted by the time of the outcome tell of it. -/
theorem ExecutionContext.reports_of_completes {progress : Progress} {out : Except Error Json} {s₁ s₂ : ExecStage}
    (hbegin : (beginOperation c).run c.stage = some (progress, s₁))
    (hdone : ∀ outcome, progress = .done outcome → outcome = out ∧ s₂ = s₁)
    (hgo : ∀ job, progress = .go job → Completes c job s₁ (some out) s₂) : c.Reports out s₂.publisher := by
  obtain ⟨l, hl⟩ := c.clear_stage
  obtain ⟨l₁, _, -, hl₁, hc₁, rfl, hmeant, hcomes⟩ :=
    does_beginOperation c ⟨{}, rfl⟩ rfl rfl hl _ _ hbegin
  -- the outcome is that of what began, and a ledger makes the stage clear
  obtain ⟨l₂, hl₂, hc₂, hout⟩ : ∃ l₂ : Ledger, l.Later c.stage l₂ s₂ ∧ l₂.Clear c [] s₂ ∧
      ∀ told, s₂.publisher.Told .initial told → progress.Comes c told (.out out) := by
    cases progress with
    | done outcome =>
      obtain ⟨rfl, rfl⟩ := hdone outcome rfl
      exact ⟨l₁, hl₁, hc₁, fun _ _ => rfl⟩
    | go job =>
      obtain ⟨r₁, hr₁⟩ := hl₁.initial
      obtain ⟨l₂, hl₂, hc₂, hout⟩ := (hgo job rfl).comes hc₁ (.of_begin hr₁ hmeant hcomes) hl₁.pending
      exact ⟨l₂, hl₁.trans hl₂, hc₂, hout out rfl⟩
  obtain ⟨r₂, hr₂⟩ := hl₂.initial
  have hallowed : ∀ e ∈ s₂.publisher.noted .initial, ∃ collected, c.collected = .ok collected ∧
      (c.asked (c.opening collected)).Comes c (fun _ => True) (.note e) := by
    intro e he
    obtain ⟨asked, hasks, he⟩ := hc₂.noted .initial e he
    obtain ⟨collected, hcollected, rfl⟩ := hasks.of_initial hr₂
    exact ⟨collected, hcollected, he⟩
  have hnoted : s₂.publisher.noted .initial = r₂.errors := Publisher.noted_of_record? hr₂
  rw [hnoted] at hallowed
  refine ⟨r₂, hr₂, ?_⟩
  cases hcollected : c.collected with
  | error e =>
    rw [hcollected] at hcomes hallowed
    subst hcomes
    refine ⟨Fate.out.inj (hout (fun _ => True) fun _ _ => trivial), List.eq_nil_iff_forall_not_mem.2 fun e' he => ?_⟩
    obtain ⟨_, hcollected', -⟩ := hallowed e' he
    exact absurd hcollected' (by simp)
  | ok collected =>
    rw [hcollected] at hcomes
    refine ⟨hcomes _ _ (hout _ fun _ he => hnoted ▸ he), fun e he => ?_⟩
    obtain ⟨collected', hcollected', he⟩ := hallowed e he
    obtain rfl := Except.ok.inj (hcollected.symm.trans hcollected')
    exact he

/-- The answer is that to an outcome of the fields of the operation, of which the errors tell that were noted. -/
theorem ExecutionContext.reports_of_respondWith {fuel : Nat} {a : Answer}
    (h : (c.respondWith fuel).run c.stage = some (some a, s')) :
    ∃ out s₁, (answer out).run s₁ = some (a, s') ∧ c.Reports out s₁.publisher := by
  obtain ⟨progress, s₁, hbegin, out?, s₂, hprogress, hanswer⟩ := completes_of_respondWith h
  cases out? with
  | none => exact absurd hanswer (Option.some_ne_none a)
  | some out =>
    obtain ⟨_, ⟨⟩, hanswer⟩ := hanswer
    refine ⟨out, s₂, hanswer, reports_of_completes hbegin ?_ ?_⟩
    · rintro outcome rfl
      exact ⟨(Option.some.inj hprogress.1).symm, hprogress.2⟩
    · rintro job rfl
      exact hprogress

/-- The answer is that to an outcome that the fields of the operation may come to. -/
theorem ExecutionContext.settles_of_respondWith {fuel : Nat} {a : Answer}
    (h : (c.respondWith fuel).run c.stage = some (some a, s')) :
    match c.collected with
    | .error e => ∃ s₁, (answer (.error e.toError)).run s₁ = some (a, s')
    | .ok collected => ∃ out s₁, Settles c (c.asked (c.opening collected)) out ∧ (answer out).run s₁ = some (a, s') := by
  obtain ⟨out, s₁, hanswer, _, -, hreports⟩ := reports_of_respondWith h
  cases hcollected : c.collected with
  | error e =>
    rw [hcollected] at hreports
    exact ⟨s₁, hreports.1 ▸ hanswer⟩
  | ok collected =>
    rw [hcollected] at hreports
    exact ⟨out, s₁, hreports.told.settles rfl, hanswer⟩

end GraphQL
