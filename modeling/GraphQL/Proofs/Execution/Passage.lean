import GraphQL.Proofs.Delivery.Retention
import GraphQL.Proofs.Execution.Works

/-!
# What moves do to the records that are there

A move gives no old record a task that had none, and completes only records of tasks (`Stage.Passes`).  So a record that
is open and has no task, neither waiting nor in hand, stays open for good.  A record that is completed stays so, and it
is not made final any more.  Nor does a move settle what is pending.
-/

namespace GraphQL

open Stage

/-- From one stage to another one, with records in hand, old records get no tasks, only those with tasks are completed,
and those that are completed stay so, without becoming final. -/
structure Stage.Passes (hand : List RecordId) (s : ExecStage) (hand' : List RecordId) (s' : ExecStage) : Prop where
  size : s.publisher.records.size ≤ s'.publisher.records.size
  opened : ∀ id ∈ s'.awaited ++ hand', id.index < s.publisher.records.size → id ∈ s.awaited ++ hand
  items : ∀ id r', s'.publisher.record? id = some (.items r') → id.index < s.publisher.records.size →
    ∃ r, s.publisher.record? id = some (.items r) ∧ r'.stream = r.stream ∧
      (r'.completed = true → r.completed = true ∨ id ∈ s.awaited ++ hand) ∧
      (r.completed = true → r'.completed = true ∧ (r'.final = true → r.final = true))

namespace Stage.Passes

variable {hand hand' hand'' : List RecordId} {s s' s'' : ExecStage}

theorem refl (hand : List RecordId) (s : ExecStage) : Passes hand s hand s :=
  ⟨Nat.le_refl _, fun _ hid _ => hid, fun _ r hr _ => ⟨r, hr, rfl, Or.inl, fun hc => ⟨hc, fun hf => hf⟩⟩⟩

theorem trans (h : Passes hand s hand' s') (h' : Passes hand' s' hand'' s'') : Passes hand s hand'' s'' := by
  refine ⟨Nat.le_trans h.size h'.size, fun id hid hlt => ?_, fun id r'' hr'' hlt => ?_⟩
  · exact h.opened id (h'.opened id hid (Nat.lt_of_lt_of_le hlt h.size)) hlt
  · obtain ⟨r', hr', hs', hc', hsettled'⟩ := h'.items id r'' hr'' (Nat.lt_of_lt_of_le hlt h.size)
    obtain ⟨r, hr, hs, hc, hsettled⟩ := h.items id r' hr' hlt
    refine ⟨r, hr, hs'.trans hs, fun hcompleted => ?_, fun hcompleted => ?_⟩
    · rcases hc' hcompleted with hcompleted | hid
      · exact hc hcompleted
      · exact Or.inr (h.opened id hid hlt)
    · obtain ⟨hcompleted', hfinal⟩ := hsettled hcompleted
      obtain ⟨hcompleted'', hfinal'⟩ := hsettled' hcompleted'
      exact ⟨hcompleted'', fun hf => hfinal (hfinal' hf)⟩

/-- The records are the same, and those that have tasks had them before. -/
theorem of_same (h : s.publisher.Same s'.publisher) (hopen : s'.awaited ++ hand' ⊆ s.awaited ++ hand) :
    Passes hand s hand' s' := by
  refine ⟨Nat.le_of_eq (congrArg Array.size h.records).symm, fun _ hid _ => hopen hid, fun id r hr _ => ?_⟩
  exact ⟨r, by rw [← h.record?]; exact hr, rfl, Or.inl, fun hc => ⟨hc, fun hf => hf⟩⟩

/-- Records that are there are changed. -/
theorem of_updates {q : Publisher Task} {D F : RecordId → Prop} (h : s.publisher.Updates q D F)
    (hg : Publisher.Grows 0 s.publisher q) (hhand : hand' ⊆ hand) (hdone : ∀ id, D id → id ∈ hand)
    (hfinal : ∀ id r, F id → s.publisher.record? id = some (.items r) → r.completed = false) : Passes hand s hand' (s.withPublisher q) := by
  have htasks : (s.withPublisher q).awaited = s.awaited := by
    show (s.work.ready ++ s.work.waiting ++ q.inbox).map Task.record = _
    rw [h.inbox]
    rfl
  refine ⟨Nat.le_of_eq h.size.symm, fun id hid _ => ?_, fun id r' hr' _ => ?_⟩
  · rw [htasks] at hid
    exact List.append_subset.2 ⟨List.subset_append_left _ _, List.Subset.trans hhand (List.subset_append_right _ _)⟩ hid
  · obtain ⟨r, hr, hs, hc, hf⟩ := h.items id r' hr'
    refine ⟨r, hr, hs, fun hcompleted => (hc hcompleted).imp_right fun hd => ?_, fun hcompleted => ⟨?_, fun hf' => ?_⟩⟩
    · exact List.mem_append_right _ (hdone id hd)
    · obtain ⟨r₁, hr₁, hgr⟩ := hg.records id _ hr
      rw [show q.record? id = some (.items r') from hr'] at hr₁
      cases hr₁
      cases hgr with
      | items _ _ _ hstays => exact hstays hcompleted
    · rcases hf hf' with hf | hF
      · exact hf
      · exact absurd (hcompleted.symm.trans (hfinal id r hF hr)) (by simp)

/-- A record is added. -/
theorem of_adds {q : Publisher Task} {record : Record} (h : s.publisher.Adds q record)
    (hhand : ∀ id ∈ hand', id ∈ hand ∨ s.publisher.records.size ≤ id.index) :
    Passes hand s hand' (s.withPublisher q) := by
  have htasks : (s.withPublisher q).awaited = s.awaited := by
    show (s.work.ready ++ s.work.waiting ++ q.inbox).map Task.record = _
    rw [h.inbox]
    rfl
  refine ⟨?_, fun id hid hlt => ?_, fun id r' hr' hlt => ?_⟩
  · show s.publisher.records.size ≤ q.records.size
    rw [h.size]
    exact Nat.le_succ _
  · rw [htasks] at hid
    rcases List.mem_append.1 hid with hid | hid
    · exact List.mem_append_left _ hid
    · rcases hhand id hid with hid | hge
      · exact List.mem_append_right _ hid
      · exact absurd hlt (Nat.not_lt.2 hge)
  · obtain ⟨r, hr, hs, hc, hf⟩ := h.items id r' hr' hlt
    exact ⟨r, hr, hs, fun hcompleted => Or.inl (hc ▸ hcompleted), fun hcompleted => ⟨hc ▸ hcompleted, fun h => hf ▸ h⟩⟩

theorem closeStreams (s : ExecStage) (ids : List StreamId) (hand : List RecordId) :
    Passes hand s hand (s.closeStreams ids) := by
  obtain ⟨htasks, hsame, -⟩ := closeStreams_eq s ids
  refine of_same hsame fun id hid => ?_
  rcases List.mem_append.1 hid with hid | hid
  · obtain ⟨task, ht, rfl⟩ := mem_awaited.1 hid
    rw [htasks] at ht
    exact List.mem_append_left _ (mem_awaited.2 ⟨task, List.mem_of_mem_filter ht, rfl⟩)
  · exact List.mem_append_right _ hid

theorem publishAndClose {f : Publisher Task → Publisher Task × List StreamId} {D F : RecordId → Prop}
    (h : s.publisher.Updates (f s.publisher).1 D F) (hg : Publisher.Grows 0 s.publisher (f s.publisher).1)
    (hhand : hand' ⊆ hand) (hdone : ∀ id, D id → id ∈ hand)
    (hfinal : ∀ id r, F id → s.publisher.record? id = some (.items r) → r.completed = false) :
    Passes hand s hand' (s.publishAndClose f) :=
  (of_updates h hg hhand hdone hfinal).trans (closeStreams _ _ hand')

end Stage.Passes

/-- A move gives no old record a task, and completes only records of tasks. -/
theorem Move.passes {hand hand' : List RecordId} {s s' : ExecStage} (m : Move hand s hand' s') (h : Sound hand s) :
    Passes hand s hand' s' := by
  have hnone : ∀ id : RecordId, False → id ∈ hand := fun _ => False.elim
  have hopen : ∀ (id : RecordId) (r : ItemsRecord), False → s.publisher.record? id = some (.items r) →
      r.completed = false := fun _ _ => False.elim
  have htail : ∀ {stream id₀}, s.publisher.Tail stream id₀ → ∀ id r, id = id₀ →
      s.publisher.record? id = some (.items r) → r.completed = false := by
    rintro stream id₀ ⟨⟨r₀, hr₀, -, hc⟩, -⟩ id r rfl hr
    rw [hr₀] at hr
    cases hr
    exact hc
  have hl := h.publisher.linked
  cases m with
  | reorder hhand hsame htasks => exact .of_same hsame fun id hid => ((htasks.map _).append hhand.symm).mem_iff.1 hid
  | @take hand _ _ task hsame htasks =>
    refine .of_same hsame fun id hid => ((htasks.map Task.record).append_right hand).mem_iff.2 ?_
    rw [List.map_cons, List.cons_append]
    exact List.perm_middle.mem_iff.1 hid
  | @rest _ _ _ task htask hsame htasks =>
    refine .of_same hsame fun id hid => ?_
    have hmem := ((htasks.map Task.record).append_right hand').mem_iff.1 hid
    rw [List.map_cons, List.cons_append] at hmem
    exact List.perm_middle.mem_iff.2 hmem
  | fragment path label hparent => exact .of_adds (Publisher.Adds.addFragment hl path label hparent) fun _ => Or.inl
  | fieldSet path hfragments =>
    refine .of_adds (Publisher.Adds.addFieldSet path hfragments) fun id hid => ?_
    rcases List.mem_cons.1 hid with rfl | hid
    · exact Or.inr (Nat.le_refl _)
    · exact Or.inl hid
  | stream path label hook =>
    exact .of_updates (D := fun _ => False) (F := fun _ => False)
      ⟨rfl, rfl, fun _ r hr => ⟨r, hr, rfl, Or.inl, Or.inl⟩⟩ (Publisher.Grows.addStream _ path label hook)
      (List.Subset.refl _) hnone hopen
  | @items _ _ stream path parent hparent hpath hlast hidle =>
    refine .of_adds (Publisher.Adds.addItems hl stream path hparent) fun id hid => ?_
    rcases List.mem_cons.1 hid with rfl | hid
    · exact Or.inr (Nat.le_refl _)
    · exact Or.inl hid
  | error e hid =>
    exact .of_updates (F := fun _ => False) (Publisher.Updates.addError _ _ e) (Publisher.Grows.addError _ _ e)
      (List.Subset.refl _) hnone hopen
  | filter path id =>
    exact .publishAndClose (F := fun _ => False) (Publisher.Updates.filter _ path id) (Publisher.Grows.filter _ path id)
      (List.Subset.refl _) hnone hopen
  | @final _ _ _ id hlast hidle =>
    exact .of_updates (F := (· = id)) (Publisher.Updates.setFinal _ rfl) (Publisher.Grows.setFinal _ id)
      (List.Subset.refl _) hnone (htail hlast)
  | completeSet data hid =>
    exact .of_updates (F := fun _ => False) (Publisher.Updates.completeFieldSet _ _ data)
      (Publisher.Grows.completeFieldSet _ _ data) (List.subset_cons_self _ _) hnone hopen
  | failSet e hid =>
    exact .of_updates (F := fun _ => False) (Publisher.Updates.failFieldSet _ _ e) (Publisher.Grows.failFieldSet _ _ e)
      (List.subset_cons_self _ _) hnone hopen
  | @completeItems hand _ id items hid =>
    exact .of_updates (D := (· = id)) (F := fun _ => False) (Publisher.Updates.completeItems _ items rfl)
      (Publisher.Grows.completeItems _ id items) (List.subset_cons_self _ _) (fun _ hd => hd ▸ List.mem_cons_self) hopen
  | @failItems hand _ listPath id e hid =>
    have hfilter : s.publisher.Updates (s.publisher.filter listPath id).1 (fun _ => False) fun _ => False :=
      Publisher.Updates.filter _ listPath id
    refine (Passes.publishAndClose (f := fun p => p.filter listPath id) hfilter
      (Publisher.Grows.filter _ listPath id) (List.Subset.refl _) hnone hopen).trans ?_
    refine .publishAndClose (D := (· = id)) (F := (· = id)) (Publisher.Updates.failItems _ e rfl rfl)
      (Publisher.Grows.failItems _ id e) (List.subset_cons_self _ _) (fun _ hd => hd ▸ List.mem_cons_self) ?_
    rintro failed r heq hr
    subst heq
    have hsame := (closeStreams_eq (s.withPublisher (s.publisher.filter listPath failed).1)
      (s.publisher.filter listPath failed).2).2.1
    obtain ⟨r₀, hr₀, -, hc, -⟩ := hfilter.items failed r ((hsame.record? failed).symm.trans hr)
    obtain ⟨r₁, -, hr₁, hwaits, -⟩ := hid
    obtain rfl : r₀ = r₁ := by
      have heq := hr₀.symm.trans hr₁
      cases heq
      rfl
    cases hcompleted : r.completed with
    | false => rfl
    | true =>
      rcases hc hcompleted with hc | hc
      · exact absurd (hc.symm.trans hwaits) (by simp)
      · exact hc.elim
  | @endItems hand _ _ id hlast =>
    have hu : s.publisher.Updates ((s.publisher.setEnd id).completeItems id []) (· = id) (· = id) :=
      Publisher.Updates.trans (Publisher.Updates.setEnd _ rfl) (Publisher.Updates.completeItems _ [] rfl)
    exact .of_updates hu ((Publisher.Grows.setEnd _ id).trans (Publisher.Grows.completeItems _ id []))
      (List.subset_cons_self _ _) (fun _ hd => hd ▸ List.mem_cons_self) (htail hlast)
  | @retireItems hand _ id hid =>
    exact .of_updates (D := (· = id)) (F := fun _ => False) (Publisher.Updates.retireItems _ rfl)
      (Publisher.Grows.retireItems _ id) (List.subset_cons_self _ _) (fun _ hd => hd ▸ List.mem_cons_self) hopen

theorem Moves.passes {hand hand' : List RecordId} {s s' : ExecStage} (m : Moves hand s hand' s') (h : Sound hand s) :
    Passes hand s hand' s' := by
  induction m with
  | refl => exact Passes.refl _ _
  | step ms m ih => exact ih.trans (m.passes (ms.sound h))

/-- A move does not settle what is pending. -/
theorem Move.retains {hand hand' : List RecordId} {s s' : ExecStage} (m : Move hand s hand' s') :
    s.publisher.Retains s'.publisher := by
  have hclose : ∀ (t : ExecStage) (f : Publisher Task → Publisher Task × List StreamId),
      t.publisher.Retains (f t.publisher).1 → t.publisher.Retains (t.publishAndClose f).publisher :=
    fun t f h => h.trans (.of_same (closeStreams_eq (t.withPublisher (f t.publisher).1) _).2.1)
  cases m with
  | reorder _ hsame => exact .of_same hsame
  | take hsame => exact .of_same hsame
  | rest _ hsame => exact .of_same hsame
  | fragment => exact .addFragment _ _ _ _
  | fieldSet => exact .addFieldSet _ _ _
  | stream => exact .addStream _ _ _ _
  | items => exact .addItems _ _ _ _
  | error => exact .modifyRecord _ _ _
  | filter path id => exact hclose s _ (.filter _ path id)
  | final => exact .modifyRecord _ _ _
  | completeSet => exact .completeFieldSet _ _ _
  | failSet => exact .failFieldSet _ _ _
  | completeItems => exact .completeItems _ _ _
  | @failItems _ _ listPath id e =>
    exact (hclose s (fun p => p.filter listPath id) (.filter _ listPath id)).trans
      (hclose _ (fun p => p.failItems id e) (.failItems _ id e))
  | endItems => exact (Publisher.Retains.modifyRecord _ _ _).trans (.completeItems _ _ _)
  | retireItems => exact .retireItems _ _

theorem Moves.retains {hand hand' : List RecordId} {s s' : ExecStage} (m : Moves hand s hand' s') :
    s.publisher.Retains s'.publisher := by
  induction m with
  | refl => exact .refl _
  | step _ m ih => exact ih.trans m.retains

end GraphQL
