import GraphQL.Proofs.Execution.Course

/-!
# Up to the answer

Before the answer, the job of the initial data is run again and again, and between its runs other work goes on beside it:
a `Course` without looks, on which tasks run and the clock moves.  `Completes` says which outcome a job comes to in this
way, or that it still waits when the execution is given up; every answer is that to such an outcome
(`ExecutionContext.completes_of_respondWith`).
-/

namespace GraphQL

open Execution Stage

variable {c : ExecutionContext} {s s' : ExecStage}

/-- The job comes to an outcome while other work goes on beside it, or to none as far as it was run. -/
inductive Completes (c : ExecutionContext) : Job → ExecStage → Option (Except Error Json) → ExecStage → Prop
  | done {job s fuel out s'} (h : (job.run c fuel).run s = some (.done out, s')) : Completes c job s (some out) s'
  | waits {job s fuel job' s₁ s'} (h : (job.run c fuel).run s = some (.waiting job', s₁)) (hcourse : Course c s₁ [] s') :
      Completes c job s none s'
  | again {job s fuel job' s₁ s₂ out? s'} (h : (job.run c fuel).run s = some (.waiting job', s₁))
      (hcourse : Course c s₁ [] s₂) (hrest : Completes c job' s₂ out? s') : Completes c job s out? s'

/-- The other work may go on for longer before a job is run again. -/
theorem Completes.of_run {job job' : Job} {fuel : Nat} {s₁ s₂ : ExecStage} {out? : Option (Except Error Json)}
    (h : (job.run c fuel).run s = some (.waiting job', s₁)) (hcourse : Course c s₁ [] s₂)
    (hrest : Completes c job' s₂ out? s' ∨ out? = none ∧ s' = s₂) : Completes c job s out? s' := by
  rcases hrest with hrest | ⟨rfl, rfl⟩
  · exact .again h hcourse hrest
  · exact .waits h hcourse

theorem leads_runReady_course (fuel count : Nat) {s₀ : ExecStage} {looks : List (Publisher Task)}
    (h : Course c s₀ looks s) : Leads (runReady (Task.run c fuel) count) s fun _ s' => Course c s₀ looks s' := by
  induction count generalizing s with
  | zero => exact Leads.pure h
  | succ count ih =>
    unfold runReady
    refine Leads.bind (leads_takeReady (fun _ => Leads.pure h) fun task rest hready => Leads.bind ?_)
    intro b s₁ hrun
    exact ih (h.work (List.Perm.of_eq hready) hrun)

/-- A job that is run together with the work that is ready comes to its outcome, or it has been run and waits. -/
theorem leads_runInitial_completes (fuel rounds : Nat) (job : Job) :
    Leads (runInitial c fuel rounds job) s fun ran s' =>
      match ran with
      | .done out => Completes c job s (some out) s'
      | .waiting job' => ∀ {s₂ out? s₃}, Course c s' [] s₂ → (Completes c job' s₂ out? s₃ ∨ out? = none ∧ s₃ = s₂) →
          Completes c job s out? s₃ := by
  induction rounds generalizing job s with
  | zero => exact Leads.failure
  | succ rounds ih =>
    unfold runInitial
    refine Leads.bind fun ran s₁ hrun => ?_
    cases ran with
    | done out => exact Leads.pure (.done hrun)
    | waiting job' =>
      refine Leads.bind (Leads.get (Leads.andThen (leads_runReady_course fuel _ .start) fun _ s₂ hcourse => ?_))
      refine Leads.bind (Leads.get ?_)
      split
      · exact Leads.pure fun hmore hrest => .of_run hrun (hcourse.trans hmore) hrest
      · refine Leads.bind (Leads.modify ((ih (s := s₂.takeInbox) job').imp fun ran s₃ hran => ?_))
        cases ran with
        | done out => exact .again hrun hcourse.inbox hran
        | waiting job'' => exact fun hmore hrest => .again hrun hcourse.inbox (hran hmore hrest)

/-- What is awaited is the answer to the outcome of the job, if it comes to one. -/
theorem leads_awaitAnswer_completes (fuel rounds : Nat) (job : Job) :
    Leads (awaitAnswer c fuel rounds job) s fun a? s' => ∃ out? s₁, Completes c job s out? s₁ ∧
      match out? with
      | some out => ∃ a, a? = some a ∧ (answer out).run s₁ = some (a, s')
      | none => a? = none := by
  induction rounds generalizing job s with
  | zero => exact Leads.failure
  | succ rounds ih =>
    unfold awaitAnswer
    refine Leads.andThen (leads_runInitial_completes fuel fuel job) fun ran s₁ hran => ?_
    cases ran with
    | done out => exact Leads.bind fun a s₂ ha => Leads.pure ⟨some out, s₁, hran, a, rfl, ha⟩
    | waiting job' =>
      refine Leads.bind (Leads.get ?_)
      split
      · rename_i time _
        refine Leads.bind (Leads.modify ((ih (s := s₁.advanceTo time) job').imp ?_))
        rintro a? s' ⟨out?, s₂, hcompletes, hrest⟩
        exact ⟨out?, s₂, hran (Course.start.advance time) (.inl hcompletes), hrest⟩
      · exact Leads.bind (Leads.modify (Leads.pure ⟨none, s₁, hran .start (.inr ⟨rfl, rfl⟩), rfl⟩))

/-- An execution begins, and the job of the initial data is completed; the answer is that to its outcome.  Without an
outcome there is no answer. -/
theorem ExecutionContext.completes_of_respondWith {fuel : Nat} {a? : Option Answer}
    (h : (c.respondWith fuel).run c.stage = some (a?, s')) :
    ∃ progress s₁, (beginOperation c).run c.stage = some (progress, s₁) ∧ ∃ out? s₂,
      (match progress with
        | .done out => out? = some out ∧ s₂ = s₁
        | .go job => Completes c job s₁ out? s₂) ∧
      match out? with
      | some out => ∃ a, a? = some a ∧ (answer out).run s₂ = some (a, s')
      | none => a? = none := by
  have hleads : Leads (c.respondWith fuel) c.stage fun a? s' => ∃ progress s₁,
      (beginOperation c).run c.stage = some (progress, s₁) ∧ ∃ out? s₂,
      (match progress with
        | .done out => out? = some out ∧ s₂ = s₁
        | .go job => Completes c job s₁ out? s₂) ∧
      match out? with
      | some out => ∃ a, a? = some a ∧ (answer out).run s₂ = some (a, s')
      | none => a? = none := by
    refine Leads.bind fun progress s₁ hbegin => ?_
    cases progress with
    | done out =>
      exact Leads.bind fun a s₂ ha => Leads.pure ⟨_, s₁, hbegin, some out, s₁, ⟨rfl, rfl⟩, a, rfl, ha⟩
    | go job =>
      refine (leads_awaitAnswer_completes fuel fuel job).imp fun a? s₂ ⟨out?, s₃, hcompletes, hrest⟩ => ?_
      exact ⟨_, s₁, hbegin, out?, s₃, hcompletes, hrest⟩
  exact hleads _ _ h

/-! ### Data -/

/-- The initial data. -/
def Answer.data : Answer → Option Json
  | .single response => response.data
  | .incremental initial => some initial.data

/-- The data of a value is the value, and that of an error is null. -/
theorem Execution.data_of_answer {out : Except Error Json} {a : Answer} {s s' : ExecStage}
    (h : (answer out).run s = some (a, s')) : a.data = some (out.toOption.getD .null) := by
  cases out with
  | error e =>
    obtain rfl : (s.answerError e).2 = a := congrArg Prod.fst (Option.some.inj h)
    rfl
  | ok v =>
    obtain rfl : (s.answerData v).2 = a := congrArg Prod.fst (Option.some.inj h)
    unfold Stage.answerData
    dsimp only
    split <;> rfl

end GraphQL
