import GraphQL.Proofs.Execution.AlongsideRun

/-!
# Sessions alongside

Work is run and results are pulled alike in an execution and in a variation of it, up to the answer (`alongside_awaitAnswer`)
and whatever the consumer does after it (`alongside_acts`).
-/

namespace GraphQL

open Execution Stage

variable {c : ExecutionContext} {w : Recollections c} {v : Variation}

/-! ### Work -/

/-- The first piece of work that can run is taken. -/
theorem alongside_takeReady : Alongside w takeReady takeReady fun w' task task' =>
    w' = w ∧ Option.Rel (Task.Counterpart w) task task' := by
  refine .get fun s s' hs => ?_
  have hready := hs.ready
  generalize hwork : s.work.ready = ready at hready
  generalize hwork' : s'.work.ready = ready' at hready
  cases hready with
  | nil => exact .pure ⟨rfl, .none⟩
  | cons htask hrest =>
    refine (Alongside.set (.refl w) (hs.withWork hrest hs.waiting)).bind ?_
    rintro w₁ - - - rfl
    exact .pure ⟨rfl, .some htask⟩

theorem alongside_runOne (fuel : Nat) {task task' : Task} (h : task.Counterpart w task') :
    Alongside w (runOne (Task.run c fuel) task) (runOne (v.runTask c fuel) task') fun _ b b' => b = b' := by
  refine (alongside_runTask v fuel h).bind ?_
  rintro w₁ _ _ - (⟨h₁⟩ | ⟨⟩)
  · refine Alongside.bind (Q := fun _ _ _ => True) (.modify (fun s s' hs => ?_) trivial) fun _ _ _ _ _ => .pure rfl
    exact hs.withWork hs.ready (List.rel_append hs.waiting (.cons h₁ .nil))
  · exact .pure rfl

theorem alongside_runUntilDone (fuel count : Nat) :
    Alongside w (runUntilDone (Task.run c fuel) count) (runUntilDone (v.runTask c fuel) count) fun _ b b' => b = b' := by
  induction count generalizing w with
  | zero => exact .pure rfl
  | succ count ih =>
    refine alongside_takeReady.bind ?_
    rintro w₁ _ _ - ⟨rfl, ⟨htask⟩ | ⟨⟩⟩
    · refine (alongside_runOne fuel htask).bind ?_
      rintro w₂ done _ - rfl
      exact .ite Iff.rfl (fun _ => .pure rfl) fun _ => ih
    · exact .pure rfl

theorem alongside_runReady (fuel count : Nat) :
    Alongside w (runReady (Task.run c fuel) count) (runReady (v.runTask c fuel) count) fun _ _ _ => True := by
  induction count generalizing w with
  | zero => exact .pure trivial
  | succ count ih =>
    refine alongside_takeReady.bind ?_
    rintro w₁ _ _ - ⟨rfl, ⟨htask⟩ | ⟨⟩⟩
    · exact (alongside_runOne fuel htask).bind fun _ _ _ _ _ => ih
    · exact .pure trivial

/-! ### Up to the answer -/

theorem alongside_runInitial (fuel rounds : Nat) {job job' : Job} (h : Job.Counterpart w job job') :
    Alongside w (runInitial c fuel rounds job) (v.runInitial c fuel rounds job') Ran.Counterpart := by
  induction rounds generalizing w job job' with
  | zero => exact .failure
  | succ rounds ih =>
    refine (alongside_run v fuel h).bind ?_
    rintro w₁ _ _ - (⟨outcome⟩ | ⟨hjob₁⟩)
    · exact .pure (.done outcome)
    · refine .get fun s s' hs => ?_
      rw [hs.ready.length_eq]
      refine (alongside_runReady fuel _).bind fun w₂ _ _ hlater _ => .get fun s s' hs => ?_
      rw [hs.isEmpty_inbox]
      refine .ite Iff.rfl (fun _ => .pure (.waiting (hjob₁.later hlater))) fun _ => ?_
      refine Alongside.bind (Q := fun w' _ _ => w' = w₂) (.modify (fun s s' hs => hs.takeInbox) rfl) ?_
      rintro w₃ - - - rfl
      exact ih (hjob₁.later hlater)

/-- The answers are the same. -/
theorem alongside_answer (outcome : Except Error Json) :
    Alongside w (answer outcome) (answer outcome) fun _ a a' => a = a' := by
  refine .modifyGet fun s s' hs => ?_
  cases outcome with
  | error e => exact hs.answerError Task.Counterpart.alike e
  | ok data => exact hs.answerData Task.Counterpart.alike data

theorem alongside_dropInitial {job job' : Job} (h : Job.Counterpart w job job') :
    Alongside w (dropInitial job) (dropInitial job') fun _ _ _ => True := by
  refine .modify (fun s s' hs => ?_) trivial
  rw [h.alike.2]
  have hclosed := hs.change (f := fun s => s.noteClosed job'.openStreams) fun s inbox work memory =>
    s.noteClosed_dressed inbox work memory _
  exact (hclosed.dropTaken Task.Counterpart.alike).closeInbox Task.Counterpart.alike

theorem alongside_advance (time : Nat) :
    Alongside w (modify fun s : Stage Task Memory => s.advanceTo time) (modify fun s => s.advanceTo time)
      fun w' _ _ => w' = w :=
  .modify (fun _ _ hs => hs.advanceTo Task.Counterpart.alike time) rfl

theorem alongside_awaitAnswer (fuel rounds : Nat) {job job' : Job} (h : Job.Counterpart w job job') :
    Alongside w (awaitAnswer c fuel rounds job) (v.awaitAnswer c fuel rounds job') fun _ a a' => a = a' := by
  induction rounds generalizing w job job' with
  | zero => exact .failure
  | succ rounds ih =>
    refine (alongside_runInitial fuel fuel h).bind ?_
    rintro w₁ _ _ - (⟨outcome⟩ | @⟨job, job', hjob₁⟩)
    · refine (alongside_answer outcome).bind ?_
      rintro w₂ a _ - rfl
      exact .pure rfl
    · refine .get fun s s' hs => ?_
      rw [hjob₁.alike.1, hs.nextTime?_eq Task.Counterpart.alike]
      cases s'.nextTime? job'.deadlines with
      | some time =>
        refine (alongside_advance time).bind ?_
        rintro w₂ - - - rfl
        exact ih hjob₁
      | none => exact (alongside_dropInitial hjob₁).bind fun _ _ _ _ _ => .pure rfl

/-! ### Pulls -/

theorem alongside_finish : Alongside w (modify (finish : Stage Task Memory → Stage Task Memory)) (modify finish)
    fun _ _ _ => True :=
  .modify (fun _ _ hs => hs.finish Task.Counterpart.alike) trivial

/-- Results are pulled alike. -/
theorem alongside_pullOpen (fuel rounds : Nat) :
    Alongside w (pullOpen (Task.run c fuel) rounds) (pullOpen (v.runTask c fuel) rounds) fun _ p p' => p = p' := by
  induction rounds generalizing w with
  | zero => exact .failure
  | succ rounds ih =>
    refine Alongside.bind (Q := fun w' _ _ => w' = w) (.modify (fun s s' hs => hs.takeInbox) rfl) ?_
    rintro w₁ - - - rfl
    refine .get fun s s' hs => ?_
    obtain ⟨hlooked, hresult⟩ := hs.blind (Blind.publisher fun p inbox => p.nextResult?_withInbox inbox)
    have hpending := hlooked.read Publisher.hasPending fun _ _ => rfl
    have hready := hlooked.hasReady_eq
    dsimp only at hlooked hresult hpending hready ⊢
    refine (Alongside.set (.refl w₁) hlooked).bind ?_
    rintro w₂ - - - rfl
    have hended : Alongside w₂ (do modify finish; return Pulled.ended) (do modify finish; return Pulled.ended)
        fun _ p p' => p = p' := alongside_finish.bind fun _ _ _ _ _ => .pure rfl
    rw [hresult, hpending, hready, hs.isEmpty_work]
    cases s'.publisher.nextResult?.2 with
    | some r =>
      exact .ite Iff.rfl (fun _ => alongside_finish.bind fun _ _ _ _ _ => .pure rfl) fun _ => .pure rfl
    | none =>
      refine .ite Iff.rfl (fun _ => hended) fun _ => .ite Iff.rfl (fun _ => ?_) fun _ => ?_
      · exact .ite Iff.rfl (fun _ => ih) fun _ => hended
      · rw [hs.ready.length_eq]
        refine (alongside_runUntilDone fuel _).bind ?_
        rintro w₃ done _ - rfl
        refine .ite Iff.rfl (fun _ => ih) fun _ => .get fun t t' ht => ?_
        rw [ht.hasReady_eq]
        exact .ite Iff.rfl (fun _ => ih) fun _ => .pure rfl

theorem alongside_pull (fuel rounds : Nat) :
    Alongside w (pull (Task.run c fuel) rounds) (pull (v.runTask c fuel) rounds) fun _ p p' => p = p' := by
  refine .get fun s s' hs => ?_
  rw [hs.same.2.2]
  exact .ite Iff.rfl (fun _ => .pure rfl) fun _ => alongside_pullOpen fuel rounds

/-! ### Consumers -/

theorem alongside_see (pulled : Option Pulled) : Alongside w (see pulled) (see pulled) fun _ a a' => a = a' := by
  refine .get fun s s' hs => .pure ?_
  rw [hs.same.1, hs.same.2.1]

/-- The consumer sees the same, whatever it does. -/
theorem alongside_act (a : Act) : Alongside w (act (Task.run c) a) (act (v.runTask c) a) fun _ x x' => x = x' := by
  cases a with
  | pull fuel rounds =>
    refine (alongside_pull fuel rounds).bind ?_
    rintro w₁ pulled _ - rfl
    exact alongside_see _
  | advance time => exact (alongside_advance time).bind fun _ _ _ _ _ => alongside_see none
  | cancel =>
    refine Alongside.bind (Q := fun _ _ _ => True) ?_ fun _ _ _ _ _ => alongside_see none
    exact .modify (fun _ _ hs => hs.cancel Task.Counterpart.alike) trivial

theorem alongside_acts (acts : List Act) :
    Alongside w (acts.mapM (act (Task.run c))) (acts.mapM (act (v.runTask c))) fun _ x x' => x = x' := by
  induction acts generalizing w with
  | nil => exact .pure rfl
  | cons a rest ih =>
    rw [List.mapM_cons, List.mapM_cons]
    refine (alongside_act a).bind ?_
    rintro w₁ sight _ - rfl
    refine ih.bind ?_
    rintro w₂ sights _ - rfl
    exact .pure rfl

end GraphQL
