import GraphQL.Proofs.Execution.History
import GraphQL.Proofs.Meaning.Opening
import GraphQL.Proofs.Meaning.Owing
import GraphQL.Proofs.Meaning.Places

/-!
# What is known of a response at any time

From the beginning of an operation up to its last result, a ledger accounts for the stage (`Ledger.Account`): it makes the
stage clear, what fragments wait for is owed, and what records hold was asked for.  Running work keeps the account as
long as it is calm; that it is calm whenever work runs after the answer follows from the turns that a response takes
(`Turns.rec_account`).
-/

namespace GraphQL

open Execution Stage

/-- A ledger accounts for a stage with records in hand, when some records were sent. -/
structure Ledger.Account (c : ExecutionContext) (l : Ledger) (gone hand : List RecordId) (s : ExecStage) : Prop where
  clear : l.Clear c hand s
  owing : s.Owing hand
  filled : s.publisher.Filled c l gone
  places : l.Places c s.publisher
  sent : ∀ id ∈ gone, id.index < s.publisher.records.size

variable {c : ExecutionContext} {l l' : Ledger} {gone hand hand' : List RecordId} {s s₀ s' : ExecStage}

namespace Ledger.Account

/-- Deeds in the calm keep the account. -/
theorem deeds (h : l.Account c gone hand s) (hcalm : s.publisher.Calm) (d : Deeds c l hand s l' hand' s')
    (hc : l'.Clear c hand' s') : l'.Account c gone hand' s' ∧ s'.publisher.Calm := by
  obtain ⟨howing, hcalm'⟩ := d.owing h.clear.sound h.owing hcalm
  exact ⟨⟨hc, howing, d.filled h.clear.sound h.filled h.sent, d.places h.clear.sound h.places, fun id hid =>
    Nat.lt_of_lt_of_le (h.sent id hid) d.moves.grows.size_le⟩, hcalm'⟩

/-- Moves that leave what records hold keep the account. -/
theorem aside (h : l.Account c gone hand s) (m : Move hand s hand' s') (hleaves : s.publisher.Leaves s'.publisher)
    (hc : l.Clear c hand' s') :
    l.Account c gone hand' s' ∧ (s.publisher.Calm → s'.publisher.Calm) := by
  have hsoothes := Publisher.Soothes.of_eases hleaves.eases
  have d : Deed c l hand s l hand' s' := .aside rfl rfl m hleaves
  exact ⟨⟨hc, h.owing.soothe m h.clear.sound hsoothes, d.filled h.clear.sound h.filled h.sent,
    d.places h.clear.sound.publisher.linked h.places, fun id hid => Nat.lt_of_lt_of_le (h.sent id hid) m.grows.size_le⟩,
    fun hcalm => hcalm.grows h.clear.sound.publisher m.growsFrom hc.sound.publisher.linked hsoothes.eases.errors
      hsoothes.released⟩

theorem reorder (h : l.Account c gone hand s) (hsame : s.publisher.Same s'.publisher) (htasks : s'.tasks.Perm s.tasks)
    (hmemory : s'.memory = s.memory) (hdone : s'.outputDone = s.outputDone) :
    l.Account c gone hand s' ∧ (s.publisher.Calm → s'.publisher.Calm) :=
  h.aside (.reorder (List.Perm.refl _) hsame htasks hdone) (.of_same hsame)
    (h.clear.reorder hsame htasks hmemory hdone).2

theorem takeInbox (h : l.Account c gone hand s) :
    l.Account c gone hand s.takeInbox ∧ (s.publisher.Calm → s.takeInbox.publisher.Calm) :=
  h.reorder ⟨rfl, rfl, rfl, rfl, rfl⟩ (tasks_takeInbox s) rfl rfl

theorem advanceTo (h : l.Account c gone hand s) (time : Nat) :
    l.Account c gone hand (s.advanceTo time) ∧ (s.publisher.Calm → (s.advanceTo time).publisher.Calm) :=
  h.reorder ⟨rfl, rfl, rfl, rfl, rfl⟩ (tasks_advanceTo s time) rfl rfl

/-- A task that can run is taken. -/
theorem take (h : l.Account c gone [] s) {task : Task} {rest : List Task} (hready : s.work.ready.Perm (task :: rest)) :
    l.Account c gone [task.record] (s.withReady rest) ∧ (s.publisher.Calm → (s.withReady rest).publisher.Calm) :=
  h.aside (.take ⟨rfl, rfl, rfl, rfl, rfl⟩ (tasks_withReady hready) rfl) (.refl _) (h.clear.take hready).2.1

/-- A task that waits is put with the work that waits. -/
theorem rest {task : Task} (h : l.Account c gone [task.record] s) (haccepts : s.publisher.Accepts task)
    (hmeant : task.Meant c l s) :
    l.Account c gone [] { s with work := { s.work with waiting := s.work.waiting ++ [task] } } ∧ (s.publisher.Calm →
      ({ s with work := { s.work with waiting := s.work.waiting ++ [task] } } : ExecStage).publisher.Calm) := by
  have hperm : (s.work.ready ++ (s.work.waiting ++ [task]) ++ s.publisher.inbox).Perm
      (task :: (s.work.ready ++ s.work.waiting ++ s.publisher.inbox)) := by
    rw [← List.append_assoc, List.append_assoc _ [task]]
    exact List.perm_middle
  exact h.aside (.rest haccepts (Publisher.Same.refl _) hperm rfl) (.refl _) (h.clear.rest haccepts hmeant).2

end Ledger.Account

/-- Work that ran in the calm keeps the account, and the calm unless it is done. -/
theorem Worked.account {rest : List RecordId} {task? : Option Task} (h : Worked c l hand s rest task? s')
    (ha : l.Account c gone hand s) (hcalm : s.publisher.Calm) :
    ∃ l' hand', l.Later s l' s' ∧ l'.Account c gone hand' s' ∧ Task.Remains c rest task? l' hand' s' ∧
      (task? ≠ none → s'.publisher.Calm) := by
  cases h with
  | deeds d hlater hclear hremains =>
    obtain ⟨ha', hcalm'⟩ := ha.deeds hcalm d hclear
    exact ⟨_, _, hlater, ha', hremains, fun _ => hcalm'⟩
  | @set l₁ id v s₁ d hdone hv before hlater hclear =>
    obtain ⟨ha', -⟩ := ha.deeds hcalm d before
    obtain ⟨r, hr, hgives⟩ := hv
    have howing := ha'.owing.completeFieldSet before.sound ⟨r, hr⟩ v
    subst hdone
    have hgrows := Publisher.Grows.completeFieldSet (n := s₁.publisher.records.size) s₁.publisher id v
    have hplaces : l₁.Places c (s₁.publisher.completeFieldSet id v) :=
      ha'.places.of_addsNothing before.sound.publisher.linked ⟨fun _ _ => rfl, fun _ _ => rfl, hgrows⟩
        (.of_ite (Publisher.lt_size_of_record? hr) (Publisher.content_completeFieldSet hr v))
    exact ⟨_, _, hlater, ⟨hclear, howing, ha'.filled.completeFieldSet ⟨r, hr, hgives⟩, hplaces,
      fun id hid => Nat.lt_of_lt_of_le (ha'.sent id hid) hgrows.size_le⟩, rfl, fun hne => absurd rfl hne⟩

/-- A task that can run is taken and run in the calm. -/
theorem Ledger.Account.runOne {fuel : Nat} {task : Task} {rest : List Task} {done : Bool} (h : l.Account c gone [] s)
    (hcalm : s.publisher.Calm) (hready : s.work.ready.Perm (task :: rest))
    (hrun : (Stage.runOne (Task.run c fuel) task).run (s.withReady rest) = some (done, s')) :
    ∃ l', l.Later s l' s' ∧ l'.Account c gone [] s' ∧ (done = false → s'.publisher.Calm) := by
  obtain ⟨hl, hc, hmeant, haccepts⟩ := h.clear.take hready
  obtain ⟨ha, hcalm₁⟩ := h.take hready
  have hleads : Leads (Stage.runOne (Task.run c fuel) task) (s.withReady rest) fun done s' =>
      ∃ l', l.Later s l' s' ∧ l'.Account c gone [] s' ∧ (done = false → s'.publisher.Calm) := by
    unfold Stage.runOne
    refine Leads.andThen (leads_task c fuel hc haccepts hmeant) fun task? s₁ hworked => ?_
    obtain ⟨l₁, hand₁, hl₁, ha₁, hremains, hcalm₂⟩ := hworked.account ha (hcalm₁ hcalm)
    cases task? with
    | none =>
      obtain rfl : hand₁ = [] := hremains
      exact Leads.pure ⟨l₁, hl.trans hl₁, ha₁, fun hfalse => absurd hfalse (by simp)⟩
    | some task' =>
      obtain ⟨rfl, haccepts₁, hmeant₁⟩ := hremains
      obtain ⟨ha₂, hcalm₃⟩ := ha₁.rest haccepts₁ hmeant₁
      obtain ⟨hl₂, -⟩ := ha₁.clear.rest haccepts₁ hmeant₁
      exact Leads.bind (Leads.modify (Leads.pure ⟨l₁, (hl.trans hl₁).trans hl₂, ha₂, fun _ => hcalm₃ (hcalm₂ (by simp))⟩))
  exact hleads _ _ hrun

/-! ### Up to the answer -/

/-- Nothing is released before anything is pending. -/
theorem Stage.Sound.calm_of_pending (h : Sound hand s) (hpending : s.publisher.pending = []) : s.publisher.Calm := by
  refine .of_released_nil (List.eq_nil_iff_forall_not_mem.2 fun id hid => ?_)
  have hmem := h.publisher.prompt.released id hid
  rw [hpending] at hmem
  exact absurd hmem (by simp)

/-- Without looks for results, a course keeps the account while nothing is pending. -/
theorem Course.account (h : Course c s [] s') (ha : l.Account c gone [] s) (hpending : s.publisher.pending = []) :
    ∃ l', l.Later s l' s' ∧ l'.Account c gone [] s' := by
  generalize hlooks : ([] : List (Publisher Task)) = looks at h
  induction h with
  | start => exact ⟨l, .refl l s, ha⟩
  | inbox _ ih =>
    obtain ⟨l₁, hl₁, ha₁⟩ := ih hlooks
    exact ⟨l₁, hl₁.trans ha₁.clear.takeInbox.1, ha₁.takeInbox.1⟩
  | look => exact absurd hlooks (by simp)
  | work _ hready hrun ih =>
    obtain ⟨l₁, hl₁, ha₁⟩ := ih hlooks
    obtain ⟨l₂, hl₂, ha₂, -⟩ := ha₁.runOne (ha₁.clear.sound.calm_of_pending (hl₁.pending.trans hpending)) hready hrun
    exact ⟨l₂, hl₁.trans hl₂, ha₂⟩
  | advance _ time ih =>
    obtain ⟨l₁, hl₁, ha₁⟩ := ih hlooks
    exact ⟨l₁, hl₁.trans (ha₁.clear.advanceTo time).1, (ha₁.advanceTo time).1⟩

/-- The job of the initial data comes to its outcome, and the account is kept. -/
theorem Completes.account {job : Job} {out? : Option (Except Error Json)} (h : Completes c job s out? s')
    (ha : l.Account c gone [] s) (hfit : job.Fit c l s .initial) (hpending : s.publisher.pending = []) :
    ∃ l' : Ledger, l'.Account c gone [] s' ∧ s'.publisher.pending = [] := by
  induction h generalizing l with
  | done h =>
    obtain ⟨l₁, _, hd, hl₁, hc₁, rfl, -⟩ := does_run c _ _ hfit (.inr hpending) ha.clear _ _ h
    exact ⟨l₁, (ha.deeds (ha.clear.sound.calm_of_pending hpending) hd hc₁).1, hl₁.pending.trans hpending⟩
  | waits h hcourse =>
    obtain ⟨l₁, _, hd, hl₁, hc₁, rfl, -⟩ := does_run c _ _ hfit (.inr hpending) ha.clear _ _ h
    have ha₁ := (ha.deeds (ha.clear.sound.calm_of_pending hpending) hd hc₁).1
    obtain ⟨l₂, hl₂, ha₂⟩ := hcourse.account ha₁ (hl₁.pending.trans hpending)
    exact ⟨l₂, ha₂, (hl₂.pending.trans hl₁.pending).trans hpending⟩
  | again h hcourse _ ih =>
    obtain ⟨l₁, _, hd, hl₁, hc₁, rfl, hmeant₁, hcomes⟩ := does_run c _ _ hfit (.inr hpending) ha.clear _ _ h
    have ha₁ := (ha.deeds (ha.clear.sound.calm_of_pending hpending) hd hc₁).1
    obtain ⟨l₂, hl₂, ha₂⟩ := hcourse.account ha₁ (hl₁.pending.trans hpending)
    have hfit₁ := hfit.advance hl₁ ha.clear.sound.publisher.linked hmeant₁ (hcomes _ fun _ _ => trivial)
    exact ih ha₂ (hfit₁.later hl₂ hc₁.sound.publisher.linked) ((hl₂.pending.trans hl₁.pending).trans hpending)

/-- Nothing is to be known of the first stage. -/
theorem ExecutionContext.account_stage (c : ExecutionContext) : ∃ l : Ledger, l.Account c [] [] c.stage := by
  obtain ⟨l, hl⟩ := c.clear_stage
  have hrecord : ∀ id r, c.stage.publisher.record? id = some r → r = .initial {} := by
    rintro ⟨index⟩ r hr
    cases index with
    | zero => exact (Option.some.inj hr).symm
    | succ index => exact absurd hr (by simp [Publisher.record?, ExecutionContext.stage])
  have hduty : ∀ id, c.stage.publisher.duty id = {} := by
    intro id
    unfold Publisher.duty Publisher.facet
    cases hr : c.stage.publisher.record? id with
    | none => rfl
    | some r => rw [hrecord id r hr]; rfl
  have hcontent : ∀ id, c.stage.publisher.content id = .nothing := by
    intro id
    unfold Publisher.content Publisher.facet
    cases hr : c.stage.publisher.record? id with
    | none => rfl
    | some r => rw [hrecord id r hr]; rfl
  have hnowhere : ∀ stream id position, ¬ c.stage.publisher.IsAt l stream id position := by
    intro stream id position hat
    rw [Publisher.isAt_iff, hcontent] at hat
    exact absurd hat (by simp [Content.spot])
  refine ⟨l, hl, ⟨⟨fun set hset => ?_, fun set => .inr fun f hf => ?_⟩, fun id hid => ?_⟩, ⟨fun id path v hid => ?_,
    fun id b hid => ?_, fun id b hid => ?_, fun stream id position hat => ?_⟩,
    ⟨fun id hid => ?_, fun stream id position hat => ?_⟩, fun id hid => absurd hid (by simp)⟩
  · exact absurd hset (by simp [Stage.awaited, Stage.tasks, ExecutionContext.stage])
  · rw [hduty] at hf
    exact absurd hf (by simp)
  · exact absurd hid (by simp [ExecutionContext.stage])
  · exact absurd ((hcontent id).symm.trans hid) (by simp)
  · exact absurd ((hcontent id).symm.trans hid) (by simp)
  · exact absurd ((hcontent id).symm.trans hid) (by simp)
  · exact absurd hat (hnowhere stream id position)
  · obtain ⟨r, hr⟩ := hid
    exact absurd (hrecord id _ hr) (by simp)
  · exact absurd hat (hnowhere stream id position)

/-- Records grow, and what is pending or released may change.  Errors may be taken, but not from the records of tasks. -/
theorem Ledger.Clear.alike (h : l.Clear c hand s) {q : Publisher Task} (hq : q.Sound) (ha : s.publisher.Alike q)
    (hg : Publisher.Grows s.publisher.records.size s.publisher q) (hnoted : ∀ id, q.noted id ⊆ s.publisher.noted id)
    (hkept : ∀ task ∈ s.tasks, s.publisher.noted task.record ⊆ q.noted task.record) :
    l.Carries s l (s.withPublisher q) ∧ l.Clear c hand (s.withPublisher q) := by
  have hcarries : l.Carries s l (s.withPublisher q) :=
    ⟨⟨fun _ _ => rfl, fun _ _ => rfl, hg⟩, fun _ _ => rfl, Nat.le_refl _, Nat.le_refl _, fun _ => hq.linked⟩
  refine ⟨hcarries, h.sound.alike hq ha, h.explains, fun task htask => ?_, fun id e he => ?_, fun stream st hst => ?_⟩
  · have htasks : (s.withPublisher q).tasks = s.tasks := by
      show s.work.ready ++ s.work.waiting ++ q.inbox = _
      rw [ha.inbox]
      rfl
    have hmem := htasks ▸ htask
    exact hcarries.task h.sound.publisher.linked (hkept task hmem) (h.tasks task hmem)
  · exact hcarries.allows h.sound.publisher.linked (h.noted id e (hnoted id he))
  · exact h.lists stream st ((ha.stream? stream).symm.trans hst)

/-- The answer to the initial data keeps the account. -/
theorem Ledger.Account.answer (h : l.Account c [] [] s) :
    l.Account c [] [] (s.withPublisher (s.publisher.publishChildren .initial).takeErrors.1) := by
  obtain ⟨hs, ha, -⟩ := h.clear.sound.publisher.publishChildren .initial
  obtain ⟨hs', ha'⟩ := hs.takeErrors
  have hrecords : (s.publisher.publishChildren .initial).records = s.publisher.records :=
    (Publisher.records_publishChildren _ _).1
  have hsame : ∀ id, (s.publisher.publishChildren .initial).record? id = s.publisher.record? id := by
    intro id
    unfold Publisher.record?
    rw [hrecords]
  have hstart : Publisher.Grows s.publisher.records.size s.publisher (s.publisher.publishChildren .initial) :=
    ⟨fun id r hr => ⟨r, (hsame id).trans hr, Record.Grows.refl r⟩,
      fun id st hst => ⟨st, (ha.stream? id).trans hst, rfl, rfl, List.Subset.refl _⟩, ha.closed⟩
  have htakes : Publisher.Grows s.publisher.records.size (s.publisher.publishChildren .initial)
      (s.publisher.publishChildren .initial).takeErrors.1 := by
    refine .modifyRecord _ .initial fun r => ?_
    cases r with
    | initial r => exact .initial (.refl _)
    | _ => exact Record.Grows.refl _
  have hgrows := hstart.trans htakes
  have heases : Publisher.Eases (fun _ => False) True s.publisher _ := .answer s.publisher
  have hnoted := Publisher.noted_publishChildren s.publisher .initial
  have htaken := Publisher.noted_takeErrors (s.publisher.publishChildren .initial)
  -- only the initial record has its errors taken, which stands for no task and holds no data
  have hkept : ∀ j, (∀ r, s.publisher.record? j ≠ some (.initial r)) →
      s.publisher.noted j ⊆ (s.publisher.publishChildren .initial).takeErrors.1.noted j := by
    intro j hj
    rw [(htaken j).2 fun r hr => hj r ((hsame j).symm.trans hr), hnoted]
    exact List.Subset.refl _
  have hcontents : ∀ j, (s.publisher.publishChildren .initial).takeErrors.1.content j = s.publisher.content j :=
    fun j => (Publisher.facet_modifyRecord fun r => by cases r <;> rfl).trans (Publisher.facet_of_record? (hsame j))
  refine ⟨(h.clear.alike hs' (ha.trans ha') hgrows (fun j => hnoted j ▸ (htaken j).1) fun task htask =>
      hkept _ fun r hr => ?_).2,
    ⟨h.owing.owes.eases heases (fun set hset => .inr ⟨?_, fun h => h⟩) fun _ => False.elim, h.owing.whole.eases heases⟩,
    h.filled.of_contents hcontents fun j hj => hkept j fun r hr => hj ?_,
    h.places.of_addsNothing h.clear.sound.publisher.linked ⟨fun _ _ => rfl, fun _ _ => rfl, hgrows⟩ (.of_contents hcontents),
    fun id hid => absurd hid (by simp)⟩
  · rcases (h.clear.sound.accepts task htask).isOpen with ⟨r', hr'⟩ | ⟨r', hr', -⟩ <;>
    · rw [hr] at hr'
      exact absurd hr' (by simp)
  · have hinbox : (s.publisher.publishChildren .initial).takeErrors.1.inbox = s.publisher.inbox := (ha.trans ha').inbox
    rw [awaited_withPublisher hinbox] at hset
    exact hset
  · exact Publisher.content_of_record? hr

/-- With the answer, an account is kept. -/
theorem ExecutionContext.Answered.account {initial : InitialResult} (h : c.Answered initial s) :
    ∃ l : Ledger, l.Account c [] [] s := by
  obtain ⟨fuel, hrun⟩ := h
  obtain ⟨progress, s₁, hbegin, out?, s₂, hprogress, hanswer⟩ := completes_of_respondWith hrun
  obtain ⟨l, hl⟩ := c.account_stage
  obtain ⟨l₁, _, hd₁, hl₁, hc₁, rfl, hmeant, hcomes⟩ :=
    does_beginOperation c ⟨{}, rfl⟩ rfl rfl hl.clear _ _ hbegin
  have ha₁ := (hl.deeds (hl.clear.sound.calm_of_pending rfl) hd₁ hc₁).1
  obtain ⟨l₂, ha₂⟩ : ∃ l₂ : Ledger, l₂.Account c [] [] s₂ := by
    cases progress with
    | done outcome =>
      obtain ⟨-, rfl⟩ := hprogress
      exact ⟨l₁, ha₁⟩
    | go job =>
      obtain ⟨r₁, hr₁⟩ := hl₁.initial
      obtain ⟨l₂, ha₂, -⟩ := hprogress.account ha₁ (.of_begin hr₁ hmeant hcomes) hl₁.pending
      exact ⟨l₂, ha₂⟩
  cases out? with
  | none => exact absurd hanswer (by simp)
  | some out =>
    obtain ⟨a, heq, hanswer⟩ := hanswer
    cases heq
    cases out with
    | error e =>
      have ha := congrArg Prod.fst (Option.some.inj hanswer)
      exact absurd ha (by simp [answerError])
    | ok data =>
      have ha : (s₂.answerData data).2 = .incremental initial := congrArg Prod.fst (Option.some.inj hanswer)
      have hs : (s₂.answerData data).1 = s := congrArg Prod.snd (Option.some.inj hanswer)
      unfold answerData at ha hs
      dsimp only at ha hs
      split at ha
      · rename_i hpending
        rw [if_pos hpending] at hs
        subst hs
        exact ⟨l₂, ha₂.answer⟩
      · exact absurd ha (by simp)

end GraphQL
