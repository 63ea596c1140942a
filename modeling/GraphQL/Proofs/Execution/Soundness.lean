import GraphQL.Proofs.Delivery.Updates
import GraphQL.Proofs.Execution.Move

/-!
# Every record that is waited for has a task

While work runs, each record that is open, a set of fields or items to come, has exactly one task, or it is in hand.
The only exception are items of a stream that was closed because something failed (`Publisher.IsCut`).  This is part of
`Stage.Sound`, which every move preserves.
-/

namespace GraphQL

namespace Publisher

variable {p q : Publisher Task}

theorem Grows.isFieldSet {n : Nat} (h : Grows n p q) {id : RecordId} (hid : p.IsFieldSet id) : q.IsFieldSet id := by
  obtain ⟨r, hr⟩ := hid
  obtain ⟨r', hr', hg⟩ := h.records id _ hr
  cases hg with
  | fieldSet => exact ⟨_, hr'⟩

theorem Grows.isHome {n : Nat} (h : Grows n p q) {id : RecordId} (hid : p.IsHome id) : q.IsHome id := by
  obtain ⟨r, hr, hnot⟩ := hid
  obtain ⟨r', hr', hg⟩ := h.records id _ hr
  refine ⟨r', hr', fun f heq => ?_⟩
  subst heq
  cases hg with
  | fragment => exact hnot _ rfl

theorem IsHome.lt_size {id : RecordId} (h : p.IsHome id) : id.index < p.records.size := by
  obtain ⟨r, hr, -⟩ := h
  exact lt_size_of_record? hr

theorem IsFieldSet.isHome {id : RecordId} (h : p.IsFieldSet id) : p.IsHome id := by
  obtain ⟨r, hr⟩ := h
  exact ⟨_, hr, by simp⟩

theorem IsItems.isHome {id : RecordId} (h : p.IsItems id) : p.IsHome id := by
  obtain ⟨r, hr⟩ := h
  exact ⟨_, hr, by simp⟩

theorem IsFragment.lt_size {id : RecordId} (h : p.IsFragment id) : id.index < p.records.size := by
  obtain ⟨r, hr⟩ := h
  exact lt_size_of_record? hr

theorem Grows.serves {n : Nat} (h : Grows n p q) {id record : RecordId} {deferMap : DeferMap}
    (hs : p.Serves id record deferMap) : q.Serves id record deferMap :=
  ⟨hs.record, h.isHome hs.home, fun e he => h.isFragment (hs.fragments e he)⟩

theorem Grows.sites {n : Nat} (h : Grows n p q) {id : RecordId} {job : Job} (hj : job.Sites (p.Serves id)) :
    job.Sites (q.Serves id) :=
  hj.imp fun _ _ hs => h.serves hs

theorem Grows.openItems {n : Nat} (h : Grows n p q) {id : RecordId} {r : ItemsRecord}
    (hr : p.record? id = some (.items r))
    (hopen : ∀ r', q.record? id = some (.items r') → r'.completed = false) :
    ∃ r', q.record? id = some (.items r') ∧ r'.stream = r.stream ∧ r'.completed = false := by
  obtain ⟨r', hr', hg⟩ := h.records id _ hr
  cases hg with
  | items hs => exact ⟨_, hr', hs, hopen _ hr'⟩

theorem Accepts.isOpen {task : Task} (h : p.Accepts task) : p.IsOpen task.record := by
  cases task with
  | fieldSet path id data => exact Or.inl h.1
  | item listPath id value =>
    obtain ⟨r, s, hr, hc, -⟩ := h.1
    exact Or.inr ⟨r, hr, hc⟩
  | fetch f =>
    obtain ⟨⟨⟨r, hr, -, hc⟩, -⟩, -⟩ := h
    exact Or.inr ⟨r, hr, hc⟩

theorem AwaitsItem.isItems {listPath : Path} {id : RecordId} (h : p.AwaitsItem listPath id) : p.IsItems id := by
  obtain ⟨r, -, hr, -⟩ := h
  exact ⟨r, hr⟩

/-- The record of a task that fetches items waits for the next one. -/
theorem Accepts.awaitsItem {f : Fetcher} (h : p.Accepts (.fetch f)) : p.AwaitsItem f.path f.record := by
  obtain ⟨⟨⟨r, hr, hs, hc⟩, -⟩, st, hst, hpath⟩ := h
  exact ⟨r, st, hr, hc, by rw [hs]; exact hst, hpath⟩

theorem IsOpen.lt_size {id : RecordId} (h : p.IsOpen id) : id.index < p.records.size := by
  rcases h with ⟨r, hr⟩ | ⟨r, hr, -⟩
  · exact lt_size_of_record? hr
  · exact lt_size_of_record? hr

/-- A task is accepted for longer as long as its record stays open and, if it fetches the items of a stream, nothing of
the stream is added or final. -/
theorem Accepts.grows {n : Nat} {task : Task} (h : p.Accepts task) (hg : Grows n p q)
    (hopen : ∀ r', q.record? task.record = some (.items r') → r'.completed = false)
    (hstream : ∀ f, task = .fetch f → ∀ other r', q.record? other = some (.items r') → r'.stream = f.stream →
      ∃ r, p.record? other = some (.items r) ∧ r.stream = f.stream ∧ (r'.final = true → r.final = true)) :
    q.Accepts task := by
  cases task with
  | fieldSet path id data => exact ⟨hg.isFieldSet h.1, hg.sites h.2⟩
  | item listPath id value =>
    obtain ⟨⟨r, s, hr, -, hs, hp⟩, hsites⟩ := h
    obtain ⟨r', hr', hstream', hc'⟩ := hg.openItems hr hopen
    obtain ⟨s', hs', hp', -⟩ := hg.streams _ s hs
    exact ⟨⟨r', s', hr', hc', by rw [hstream']; exact hs', hp'.trans hp⟩, hg.sites hsites⟩
  | fetch f =>
    obtain ⟨⟨⟨r, hr, hrs, -⟩, hlast⟩, s, hs, hp⟩ := h
    obtain ⟨r', hr', hstream', hc'⟩ := hg.openItems hr hopen
    obtain ⟨s', hs', hp', -⟩ := hg.streams _ s hs
    refine ⟨⟨⟨r', hr', hstream'.trans hrs, hc'⟩, fun other r'' hr'' hs'' => ?_⟩, s', hs', hp'.trans hp⟩
    obtain ⟨r₀, hr₀, hs₀, hf⟩ := hstream f rfl other r'' hr'' hs''
    obtain ⟨hle, hfinal⟩ := hlast other r₀ hr₀ hs₀
    refine ⟨hle, ?_⟩
    cases hf' : r''.final with
    | false => rfl
    | true => rw [hf hf'] at hfinal; exact absurd hfinal (by simp)

theorem Same.accepts (h : p.Same q) {task : Task} (ht : p.Accepts task) : q.Accepts task := by
  refine ht.grows (h.grows 0) (fun r' hr' => ?_) fun f _ other r' hr' hs => ?_
  · rw [h.record?] at hr'
    rcases ht.isOpen with ⟨r, hr⟩ | ⟨r, hr, hc⟩
    · rw [hr] at hr'
      exact absurd hr' (by simp)
    · rw [hr] at hr'
      cases hr'
      exact hc
  · exact ⟨r', by rw [← h.record?]; exact hr', hs, fun hf => hf⟩

theorem Same.isOpen (h : p.Same q) {id : RecordId} (hid : p.IsOpen id) : q.IsOpen id := by
  unfold IsOpen IsFieldSet at *
  rw [h.record?]
  exact hid

theorem Same.tail (h : p.Same q) {stream : StreamId} {id : RecordId} (ht : p.Tail stream id) : q.Tail stream id := by
  obtain ⟨⟨r, hr, hs, hc⟩, hlast⟩ := ht
  refine ⟨⟨r, by rw [h.record?]; exact hr, hs, hc⟩, fun other r' hr' => hlast other r' ?_⟩
  rw [← h.record?]
  exact hr'

/-- A new record of a stream is the last one. -/
theorem Adds.tail {r : ItemsRecord} (ha : p.Adds q (.items r)) (hc : r.completed = false) (hf : r.final = false)
    (parent : RecordId) (hlast : p.Unused r.stream ∨ p.Tail r.stream parent) :
    q.Tail r.stream ⟨p.records.size⟩ := by
  refine ⟨⟨r, ha.new, rfl, hc⟩, fun other r' hr' hs => ?_⟩
  rcases Nat.lt_or_ge other.index p.records.size with hlt | hge
  · obtain ⟨r₀, hr₀, hs₀, -, hf₀⟩ := ha.items other r' hr' hlt
    refine ⟨Nat.le_of_lt hlt, ?_⟩
    rw [hf₀]
    rcases hlast with hunused | ⟨-, hlast⟩
    · exact absurd (hs₀.symm.trans hs) (hunused other r₀ hr₀)
    · exact (hlast other r₀ hr₀ (hs₀.symm.trans hs)).2
  · have hlt := lt_size_of_record? hr'
    rw [ha.size] at hlt
    obtain rfl : other = ⟨p.records.size⟩ := RecordId.index_inj.1 (show other.index = p.records.size by omega)
    rw [ha.new] at hr'
    cases hr'
    exact ⟨Nat.le_refl _, hf⟩

end Publisher

namespace Stage

variable {s s' : ExecStage} {hand hand' : List RecordId}

/-! ### Closing streams -/

theorem tasks_fireAny (s : ExecStage) (hook : Option HookId) :
    (s.fireAny hook).work = s.work ∧ (s.fireAny hook).publisher = s.publisher := by
  unfold fireAny
  split
  · unfold fire
    split <;> exact ⟨rfl, rfl⟩
  · exact ⟨rfl, rfl⟩

theorem outputDone_fireAny (s : ExecStage) (hook : Option HookId) : (s.fireAny hook).outputDone = s.outputDone := by
  unfold fireAny
  split
  · unfold fire
    split <;> rfl
  · rfl

theorem noteCall_beside (s : ExecStage) (notice : Notice) : s.Beside (s.noteCall notice) := by
  cases notice <;> exact ⟨rfl, rfl, rfl⟩

theorem noteClosed_beside (s : ExecStage) (names : List String) : s.Beside (s.noteClosed names) :=
  List.foldlRecOn (motive := s.Beside) names _ ⟨rfl, rfl, rfl⟩ fun _ ht _ _ => ⟨ht.publisher, ht.work, ht.outputDone⟩

theorem noteOpened_beside (s : ExecStage) (names : List String) : s.Beside (s.noteOpened names) :=
  List.foldlRecOn (motive := s.Beside) names _ ⟨rfl, rfl, rfl⟩ fun _ ht _ _ => ⟨ht.publisher, ht.work, ht.outputDone⟩

theorem noteEnded_beside (s : ExecStage) (names : List String) : s.Beside (s.noteEnded names) :=
  List.foldlRecOn (motive := s.Beside) names _ ⟨rfl, rfl, rfl⟩ fun _ ht _ _ => ⟨ht.publisher, ht.work, ht.outputDone⟩

theorem dropWork_beside (s : ExecStage) (task : Task) : s.Beside (s.dropWork task) := by
  have hnote := noteClosed_beside s (Work.openStreams task)
  obtain ⟨hw, hp⟩ := tasks_fireAny (s.noteClosed (Work.openStreams task)) (Work.hook task)
  exact ⟨hp.trans hnote.publisher, hw.trans hnote.work, (outputDone_fireAny _ _).trans hnote.outputDone⟩

theorem closeStream_eq (s : ExecStage) (id : StreamId) :
    (s.closeStream id).tasks = s.tasks.filter (fun t => t.drives ≠ some id) ∧
      s.publisher.Same (s.closeStream id).publisher ∧ (s.closeStream id).outputDone = s.outputDone := by
  obtain ⟨hw, hp⟩ := tasks_fireAny s ((s.publisher.stream? id).bind StreamRecord.hook)
  refine ⟨?_, ?_, ?_⟩
  · unfold tasks
    rw [List.filter_append, List.filter_append]
    show (WorkSet.filter _ _).ready ++ (WorkSet.filter _ _).waiting ++ List.filter _ _ = _
    rw [hw, hp]
    rfl
  · unfold closeStream
    dsimp only
    rw [hp]
    exact ⟨rfl, rfl, rfl, rfl, rfl⟩
  · exact outputDone_fireAny s _

/-- Closing streams takes away the tasks that fetch their items, and nothing else. -/
theorem closeStreams_eq (s : ExecStage) (ids : List StreamId) :
    (s.closeStreams ids).tasks = s.tasks.filter (fun t => ids.all fun id => t.drives ≠ some id) ∧
      s.publisher.Same (s.closeStreams ids).publisher ∧ (s.closeStreams ids).outputDone = s.outputDone := by
  induction ids generalizing s with
  | nil => exact ⟨by simp [closeStreams], Publisher.Same.refl _, rfl⟩
  | cons id rest ih =>
    obtain ⟨ht, hs, ho⟩ := closeStream_eq s id
    obtain ⟨ht', hs', ho'⟩ := ih (s.closeStream id)
    refine ⟨?_, hs.trans hs', ho'.trans ho⟩
    show ((s.closeStream id).closeStreams rest).tasks = _
    rw [ht', ht, List.filter_filter]
    simp only [List.all_cons, Bool.and_comm]

/-! ### What moves preserve -/

/-- What holds while work runs, with the records in hand. -/
structure Sound (hand : List RecordId) (s : ExecStage) : Prop where
  closed : s.publisher.closed = false
  publisher : s.publisher.Sound
  nodup : (s.awaited ++ hand).Nodup
  opened : ∀ id ∈ hand, s.publisher.IsOpen id
  accepts : ∀ task ∈ s.tasks, s.publisher.Accepts task
  unfinished : ∀ id r, s.publisher.record? id = some r → ∀ set ∈ r.unfinished, set ∈ s.awaited ++ hand
  items : ∀ id r, s.publisher.record? id = some (.items r) → r.completed = false →
    id ∈ s.awaited ++ hand ∨ s.publisher.IsCut r.stream

theorem mem_awaited {id : RecordId} : id ∈ s.awaited ↔ ∃ task ∈ s.tasks, task.record = id := List.mem_map

/-- A change of the publisher after which streams that are cut are closed. -/
theorem Sound.change (h : Sound hand s) {q : Publisher Task} (ids : List StreamId) (hsame : q.Same s'.publisher)
    (htasks : s'.tasks = s.tasks.filter fun t => ids.all fun id => t.drives ≠ some id)
    (hcut : ∀ id ∈ ids, q.IsCut id) (hq : q.Sound)
    (hg : Publisher.Grows s.publisher.records.size s.publisher q) (hnodup : (s.awaited ++ hand').Nodup)
    (hopen : ∀ id ∈ hand', q.IsOpen id)
    (hawaited : ∀ id ∈ s.awaited, ∀ r, q.record? id = some (.items r) → r.completed = false)
    (hleft : ∀ id ∈ hand, id ∉ hand' → (∀ r, q.record? id = some (.items r) → r.completed = true) ∧
      ∀ fragment r, q.record? fragment = some r → id ∉ r.unfinished)
    (hnew : ∀ id r, q.record? id = some (.items r) → s.publisher.records.size ≤ id.index → id ∈ hand')
    (hsets : ∀ id r, q.record? id = some r → ∀ set ∈ r.unfinished, s.publisher.records.size ≤ set.index → set ∈ hand')
    (hstream : ∀ f, .fetch f ∈ s'.tasks → ∀ other r', q.record? other = some (.items r') → r'.stream = f.stream →
      ∃ r, s.publisher.record? other = some (.items r) ∧ r.stream = f.stream ∧ (r'.final = true → r.final = true)) :
    Sound hand' s' := by
  have hkept : ∀ task, task ∈ s'.tasks → task ∈ s.tasks := by
    intro task ht
    rw [htasks] at ht
    exact List.mem_of_mem_filter ht
  have hsub : s'.awaited.Sublist s.awaited := by
    unfold awaited
    rw [htasks]
    exact List.filter_sublist.map _
  refine ⟨?_, hsame.sound hq, (hsub.append_right hand').nodup hnodup, fun id hid => hsame.isOpen (hopen id hid),
    fun task ht => ?_, fun id r' hr' set hset => ?_, fun id r' hr' hc => ?_⟩
  · rw [hsame.closed, hg.closed]
    exact h.closed
  · refine hsame.accepts ((h.accepts task (hkept task ht)).grows hg ?_ ?_)
    · exact hawaited task.record (mem_awaited.2 ⟨task, hkept task ht, rfl⟩)
    · rintro f rfl
      exact hstream f ht
  · rw [hsame.record?] at hr'
    rw [List.mem_append]
    rcases Nat.lt_or_ge set.index s.publisher.records.size with hlt | hge
    · obtain ⟨g, hgset, hmem⟩ := hq.linked.unfinished id r' hr' set hset
      have hid : id.index < set.index := (hq.linked.fragments set g hgset id hmem).1
      obtain ⟨r, hr, hgr⟩ := hg.old hr' (Nat.lt_trans hid hlt)
      have hset' : set ∈ r.unfinished := by
        cases hgr with
        | fragment _ _ _ _ hu =>
          rcases hu set hset with hset | hle
          · exact hset
          · exact absurd hlt (Nat.not_lt.2 hle)
        | _ => exact absurd hset (by simp [Record.unfinished])
      rcases List.mem_append.1 (h.unfinished id r hr set hset') with ha | hh
      · left
        obtain ⟨task, ht, heq⟩ := mem_awaited.1 ha
        refine mem_awaited.2 ⟨task, ?_, heq⟩
        rw [htasks, List.mem_filter]
        refine ⟨ht, List.all_eq_true.2 fun stream _ => ?_⟩
        cases task with
        | fetch f =>
          obtain ⟨⟨⟨r₁, hr₁, -⟩, -⟩, -⟩ := h.accepts _ ht
          obtain ⟨r₂, hr₂, -⟩ := h.publisher.linked.unfinished id r hr set hset'
          rw [← heq, show (Task.fetch f).record = f.record from rfl, hr₁] at hr₂
          exact absurd hr₂ (by simp)
        | _ => rfl
      · right
        by_contra hnot
        exact (hleft set hh hnot).2 id r' hr' hset
    · exact Or.inr (hsets id r' hr' set hset hge)
  · rw [hsame.record?] at hr'
    rcases Nat.lt_or_ge id.index s.publisher.records.size with hlt | hge
    · obtain ⟨r, hr, hgr⟩ := hg.old hr' hlt
      cases hgr with
      | @items r _ hstream' _ _ hcompleted =>
        have hc₀ : r.completed = false := by
          cases hrc : r.completed with
          | false => rfl
          | true => rw [hcompleted hrc] at hc; exact hc
        rw [hstream']
        rcases h.items id r hr hc₀ with hmem | hcut'
        · rcases List.mem_append.1 hmem with ha | hh
          · obtain ⟨task, ht, heq⟩ := mem_awaited.1 ha
            by_cases hkeep : task ∈ s'.tasks
            · exact Or.inl (List.mem_append_left _ (mem_awaited.2 ⟨task, hkeep, heq⟩))
            · right
              rw [htasks, List.mem_filter, not_and, List.all_eq_true] at hkeep
              have hdrop := hkeep ht
              push Not at hdrop
              obtain ⟨stream, hstreamMem, hdrives⟩ := hdrop
              cases task with
              | fetch f =>
                have hfs : f.stream = stream := by simpa [Task.drives] using hdrives
                obtain ⟨⟨⟨r₁, hr₁, hrs, -⟩, -⟩, -⟩ := h.accepts _ ht
                rw [show f.record = id from heq, hr] at hr₁
                cases hr₁
                rw [hrs, hfs]
                exact (hsame.grows 0).isCut (hcut stream hstreamMem)
              | _ => exact absurd rfl hdrives
          · by_cases hh' : id ∈ hand'
            · exact Or.inl (List.mem_append_right _ hh')
            · rw [(hleft id hh hh').1 _ hr'] at hc
              exact absurd hc (by simp)
        · exact Or.inr ((hsame.grows 0).isCut (hg.isCut hcut'))
    · exact Or.inl (List.mem_append_right _ (hnew id r' hr' hge))

/-- A change of records that are there, after which streams that are cut are closed.  Only records that are in hand are
completed, and only streams become final whose items no task fetches. -/
theorem Sound.update (h : Sound hand s) {q : Publisher Task} {D F : RecordId → Prop} (ids : List StreamId)
    (hsame : q.Same s'.publisher)
    (htasks : s'.tasks = s.tasks.filter fun t => ids.all fun id => t.drives ≠ some id)
    (hcut : ∀ id ∈ ids, q.IsCut id) (hq : q.Sound)
    (hg : Publisher.Grows s.publisher.records.size s.publisher q) (hu : s.publisher.Updates q D F)
    (hhand : hand'.Sublist hand) (hdone : ∀ id, D id → id ∉ s.awaited ∧ id ∉ hand')
    (hfinal : ∀ id r, F id → s.publisher.record? id = some (.items r) →
      ∀ f, .fetch f ∈ s'.tasks → f.stream ≠ r.stream)
    (hleft : ∀ id ∈ hand, id ∉ hand' → (∀ r, q.record? id = some (.items r) → r.completed = true) ∧
      ∀ fragment r, q.record? fragment = some r → id ∉ r.unfinished) : Sound hand' s' := by
  have hstays : ∀ id r', s.publisher.IsOpen id → ¬ D id → q.record? id = some (.items r') →
      r'.completed = false := by
    intro id r' hopen hnot hr'
    obtain ⟨r, hr, -, hc, -⟩ := hu.items id r' hr'
    rcases hopen with ⟨g, hgr⟩ | ⟨r₀, hr₀, hc₀⟩
    · rw [hr] at hgr
      exact absurd hgr (by simp)
    · rw [hr] at hr₀
      cases hr₀
      cases hrc : r'.completed with
      | false => rfl
      | true =>
        rcases hc hrc with hc | hd
        · rw [hc] at hc₀
          exact hc₀
        · exact absurd hd hnot
  refine h.change ids hsame htasks hcut hq hg ((hhand.append_left s.awaited).nodup h.nodup) (fun id hid => ?_)
    (fun id hid r hr => ?_) hleft (fun id r hr hle => ?_) (fun id r hr set hset hle => ?_)
    fun f hf other r' hr' hs => ?_
  · rcases h.opened id (hhand.subset hid) with hset | ⟨r, hr, hc⟩
    · exact Or.inl (hg.isFieldSet hset)
    · obtain ⟨r', hr', -, hc'⟩ := hg.openItems hr fun r' hr' =>
        hstays id r' (Or.inr ⟨r, hr, hc⟩) (fun hd => (hdone id hd).2 hid) hr'
      exact Or.inr ⟨r', hr', hc'⟩
  · obtain ⟨task, ht, rfl⟩ := mem_awaited.1 hid
    exact hstays task.record r (h.accepts task ht).isOpen (fun hd => (hdone _ hd).1 hid) hr
  · have hlt := Publisher.lt_size_of_record? hr
    rw [hu.size] at hlt
    exact absurd hlt (Nat.not_lt.2 hle)
  · obtain ⟨g, hgr, -⟩ := hq.linked.unfinished id r hr set hset
    have hlt := Publisher.lt_size_of_record? hgr
    rw [hu.size] at hlt
    exact absurd hlt (Nat.not_lt.2 hle)
  · obtain ⟨r, hr, hs', -, hf'⟩ := hu.items other r' hr'
    refine ⟨r, hr, hs'.symm.trans hs, fun hfin => ?_⟩
    rcases hf' hfin with hfin | hfin
    · exact hfin
    · exact absurd (hs.symm.trans hs') (hfinal other r hfin hr f hf)

/-- A new record, which is in hand unless it is a fragment. -/
theorem Sound.add (h : Sound hand s) {q : Publisher Task} {record : Record} (ha : s.publisher.Adds q record)
    (hq : q.Sound) (hg : Publisher.Grows s.publisher.records.size s.publisher q)
    (hhand : hand' = hand ∧ (∃ r, record = .fragment r) ∨
      hand' = ⟨s.publisher.records.size⟩ :: hand ∧
        ((∃ r, record = .fieldSet r) ∨ ∃ r, record = .items r ∧ r.completed = false ∧ s.Idle r.stream)) :
    Sound hand' (s.withPublisher q) := by
  have hsub : hand ⊆ hand' := by
    rcases hhand with ⟨rfl, -⟩ | ⟨rfl, -⟩
    · exact List.Subset.refl _
    · exact List.subset_cons_self _ _
  have hopen : ∀ id, s.publisher.IsOpen id → q.IsOpen id := by
    rintro id (hset | ⟨r, hr, hc⟩)
    · exact Or.inl (hg.isFieldSet hset)
    · obtain ⟨r', hr', -, hc'⟩ := hg.openItems hr fun r' hr' => by
        obtain ⟨r₀, hr₀, -, hc₀, -⟩ := ha.items id r' hr' (Publisher.lt_size_of_record? hr)
        rw [hr] at hr₀
        cases hr₀
        rw [hc₀]
        exact hc
      exact Or.inr ⟨r', hr', hc'⟩
  have hlt : ∀ id ∈ s.awaited ++ hand, id.index < s.publisher.records.size := by
    intro id hid
    rcases List.mem_append.1 hid with hid | hid
    · obtain ⟨task, ht, rfl⟩ := mem_awaited.1 hid
      exact (h.accepts task ht).isOpen.lt_size
    · exact (h.opened id hid).lt_size
  have hnewest : ∀ id : RecordId, id.index < q.records.size → s.publisher.records.size ≤ id.index →
      id = ⟨s.publisher.records.size⟩ := by
    intro id hlt hle
    rw [ha.size] at hlt
    exact RecordId.index_inj.1 (show id.index = s.publisher.records.size by omega)
  refine h.change [] (Publisher.Same.refl q) ?_ (by simp) hq hg ?_ (fun id hid => ?_) (fun id hid r hr => ?_)
    (fun id hid hnot => absurd (hsub hid) hnot) (fun id r hr hle => ?_) (fun id r hr set hset hle => ?_)
    fun f hf other r' hr' hs => ?_
  · show s.work.ready ++ s.work.waiting ++ q.inbox = _
    rw [ha.inbox]
    simp [tasks]
  · rcases hhand with ⟨rfl, -⟩ | ⟨rfl, -⟩
    · exact h.nodup
    · rw [List.nodup_middle, List.nodup_cons]
      exact ⟨fun hmem => Nat.lt_irrefl _ (hlt _ hmem), h.nodup⟩
  · rcases hhand with ⟨rfl, -⟩ | ⟨rfl, hrecord⟩
    · exact hopen id (h.opened id hid)
    · rcases List.mem_cons.1 hid with rfl | hid
      · rcases hrecord with ⟨r, rfl⟩ | ⟨r, rfl, hc, -⟩
        · exact Or.inl ⟨r, ha.new⟩
        · exact Or.inr ⟨r, ha.new, hc⟩
      · exact hopen id (h.opened id hid)
  · obtain ⟨task, ht, rfl⟩ := mem_awaited.1 hid
    rcases hopen _ (h.accepts task ht).isOpen with ⟨g, hgr⟩ | ⟨r₀, hr₀, hc₀⟩
    · rw [hr] at hgr
      exact absurd hgr (by simp)
    · rw [hr] at hr₀
      cases hr₀
      exact hc₀
  · obtain rfl := hnewest id (Publisher.lt_size_of_record? hr) hle
    rw [ha.new] at hr
    rcases hhand with ⟨-, r₀, rfl⟩ | ⟨rfl, -⟩
    · exact absurd hr (by simp)
    · exact List.mem_cons_self
  · obtain ⟨g, hgr, -⟩ := hq.linked.unfinished id r hr set hset
    obtain rfl := hnewest set (Publisher.lt_size_of_record? hgr) hle
    rw [ha.new] at hgr
    rcases hhand with ⟨-, r₀, rfl⟩ | ⟨rfl, -⟩
    · exact absurd hgr (by simp)
    · exact List.mem_cons_self
  · rcases Nat.lt_or_ge other.index s.publisher.records.size with hold | hge
    · obtain ⟨r, hr, hs', -, hf'⟩ := ha.items other r' hr' hold
      exact ⟨r, hr, hs'.symm.trans hs, fun hfin => by rw [← hf']; exact hfin⟩
    · obtain rfl := hnewest other (Publisher.lt_size_of_record? hr') hge
      rw [ha.new] at hr'
      rcases hhand with ⟨-, r₀, rfl⟩ | ⟨-, ⟨r₀, rfl⟩ | ⟨r₀, rfl, -, hidle⟩⟩
      · exact absurd hr' (by simp)
      · exact absurd hr' (by simp)
      · cases hr'
        have hold : .fetch f ∈ s.work.ready ++ s.work.waiting ++ q.inbox := hf
        rw [ha.inbox] at hold
        exact absurd hs.symm (hidle f hold)

/-- A change of records that are there, without closing streams. -/
theorem Sound.withPublisher (h : Sound hand s) {q : Publisher Task} {D F : RecordId → Prop} (hq : q.Sound)
    (hg : Publisher.Grows s.publisher.records.size s.publisher q) (hu : s.publisher.Updates q D F)
    (hhand : hand'.Sublist hand) (hdone : ∀ id, D id → id ∉ s.awaited ∧ id ∉ hand')
    (hfinal : ∀ id r, F id → s.publisher.record? id = some (.items r) → s.Idle r.stream)
    (hleft : ∀ id ∈ hand, id ∉ hand' → (∀ r, q.record? id = some (.items r) → r.completed = true) ∧
      ∀ fragment r, q.record? fragment = some r → id ∉ r.unfinished) : Sound hand' (s.withPublisher q) := by
  have htasks : (s.withPublisher q).tasks = s.tasks := by
    show s.work.ready ++ s.work.waiting ++ q.inbox = _
    rw [hu.inbox]
    rfl
  refine h.update [] (Publisher.Same.refl q) (by rw [htasks]; simp) (by simp) hq hg hu hhand hdone
    (fun id r hid hr f hf => ?_) hleft
  rw [htasks] at hf
  exact hfinal id r hid hr f hf

/-- The record that is taken out of hand is no longer open. -/
theorem Sound.not_mem_hand {id : RecordId} (h : Sound (id :: hand) s) : id ∉ s.awaited ∧ id ∉ hand := by
  have hnodup := h.nodup
  rw [List.nodup_middle, List.nodup_cons, List.mem_append, not_or] at hnodup
  exact hnodup.1

/-- A set of fields is taken out of hand. -/
private theorem left_fieldSet {id : RecordId} {q : Publisher Task} (hset : q.IsFieldSet id)
    (hunfinished : ∀ fragment r, q.record? fragment = some r → id ∉ r.unfinished) :
    ∀ j ∈ id :: hand, j ∉ hand → (∀ r, q.record? j = some (.items r) → r.completed = true) ∧
      ∀ fragment r, q.record? fragment = some r → j ∉ r.unfinished := by
  intro j hj hnot
  rcases List.mem_cons.1 hj with rfl | hj
  · refine ⟨fun r hr => ?_, hunfinished⟩
    obtain ⟨g, hg⟩ := hset
    rw [hr] at hg
    exact absurd hg (by simp)
  · exact absurd hj hnot

/-- A record of items is taken out of hand. -/
private theorem left_items {id : RecordId} {q : Publisher Task} (hq : q.Linked)
    (hcompleted : ∀ r, q.record? id = some r → ∃ r₀, r = .items r₀ ∧ r₀.completed = true) :
    ∀ j ∈ id :: hand, j ∉ hand → (∀ r, q.record? j = some (.items r) → r.completed = true) ∧
      ∀ fragment r, q.record? fragment = some r → j ∉ r.unfinished := by
  intro j hj hnot
  rcases List.mem_cons.1 hj with rfl | hj
  · refine ⟨fun r hr => ?_, fun fragment r hr hset => ?_⟩
    · obtain ⟨r₀, heq, hc⟩ := hcompleted _ hr
      cases heq
      exact hc
    · obtain ⟨g, hg, -⟩ := hq.unfinished fragment r hr j hset
      obtain ⟨r₀, heq, -⟩ := hcompleted _ hg
      exact absurd heq (by simp)
  · exact absurd hj hnot

/-- The order of the tasks does not matter, nor where they wait, nor that of the records in hand. -/
theorem Sound.reorder (h : Sound hand s) (hhand : hand.Perm hand') (hsame : s.publisher.Same s'.publisher)
    (htasks : s'.tasks.Perm s.tasks) : Sound hand' s' := by
  have hawaited : (s'.awaited ++ hand').Perm (s.awaited ++ hand) := (htasks.map _).append hhand.symm
  refine ⟨hsame.closed.trans h.closed, hsame.sound h.publisher, hawaited.nodup_iff.2 h.nodup,
    fun id hid => hsame.isOpen (h.opened id (hhand.mem_iff.2 hid)),
    fun task ht => hsame.accepts (h.accepts task (htasks.mem_iff.1 ht)), fun id r hr set hset => ?_,
    fun id r hr hc => ?_⟩
  · rw [hsame.record?] at hr
    exact hawaited.mem_iff.2 (h.unfinished id r hr set hset)
  · rw [hsame.record?] at hr
    exact (h.items id r hr hc).imp hawaited.mem_iff.2 (hsame.grows 0).isCut

/-- A task is taken and its record is in hand. -/
theorem Sound.take {task : Task} (h : Sound hand s) (hsame : s.publisher.Same s'.publisher)
    (hperm : s.tasks.Perm (task :: s'.tasks)) : Sound (task.record :: hand) s' := by
  have hmem : ∀ t ∈ s'.tasks, t ∈ s.tasks := fun t ht => hperm.mem_iff.2 (List.mem_cons_of_mem _ ht)
  have hawaited : (s.awaited ++ hand).Perm (s'.awaited ++ task.record :: hand) := by
    refine ((hperm.map Task.record).append_right hand).trans ?_
    rw [List.map_cons, List.cons_append]
    exact List.perm_middle.symm
  refine ⟨hsame.closed.trans h.closed, hsame.sound h.publisher, hawaited.nodup_iff.1 h.nodup, fun id hid => ?_,
    fun t ht => hsame.accepts (h.accepts t (hmem t ht)), fun id r hr set hset => ?_, fun id r hr hc => ?_⟩
  · rcases List.mem_cons.1 hid with rfl | hid
    · exact hsame.isOpen (h.accepts task (hperm.mem_iff.2 List.mem_cons_self)).isOpen
    · exact hsame.isOpen (h.opened id hid)
  · rw [hsame.record?] at hr
    exact hawaited.mem_iff.1 (h.unfinished id r hr set hset)
  · rw [hsame.record?] at hr
    exact (h.items id r hr hc).imp hawaited.mem_iff.1 (hsame.grows 0).isCut

/-- A task waits, and its record is no longer in hand. -/
theorem Sound.rest {task : Task} (h : Sound (task.record :: hand) s) (htask : s.publisher.Accepts task)
    (hsame : s.publisher.Same s'.publisher) (hperm : s'.tasks.Perm (task :: s.tasks)) : Sound hand s' := by
  have hawaited : (s'.awaited ++ hand).Perm (s.awaited ++ task.record :: hand) := by
    refine ((hperm.map Task.record).append_right hand).trans ?_
    rw [List.map_cons, List.cons_append]
    exact List.perm_middle.symm
  refine ⟨hsame.closed.trans h.closed, hsame.sound h.publisher, hawaited.nodup_iff.2 h.nodup,
    fun id hid => hsame.isOpen (h.opened id (List.mem_cons_of_mem _ hid)), fun t ht => ?_,
    fun id r hr set hset => ?_, fun id r hr hc => ?_⟩
  · rcases List.mem_cons.1 (hperm.mem_iff.1 ht) with rfl | ht
    · exact hsame.accepts htask
    · exact hsame.accepts (h.accepts t ht)
  · rw [hsame.record?] at hr
    exact hawaited.mem_iff.2 (h.unfinished id r hr set hset)
  · rw [hsame.record?] at hr
    exact (h.items id r hr hc).imp hawaited.mem_iff.2 (hsame.grows 0).isCut

theorem tasks_spawn (h : s.publisher.closed = false) (task : Task) : (s.spawn task).tasks = s.tasks ++ [task] := by
  unfold spawn
  rw [h]
  show s.work.ready ++ s.work.waiting ++ (s.publisher.inbox ++ [task]) = _
  rw [← List.append_assoc]
  rfl

theorem same_spawn (h : s.publisher.closed = false) (task : Task) : s.publisher.Same (s.spawn task).publisher := by
  unfold spawn
  rw [h]
  exact ⟨rfl, rfl, rfl, rfl, rfl⟩

theorem outputDone_spawn (h : s.publisher.closed = false) (task : Task) :
    (s.spawn task).outputDone = s.outputDone := by
  unfold spawn
  rw [h]
  rfl

/-- A change of records that are there, after which streams that are cut are closed. -/
theorem Sound.publishAndClose (h : Sound hand s) {f : Publisher Task → Publisher Task × List StreamId}
    {D F : RecordId → Prop} (hcut : ∀ stream ∈ (f s.publisher).2, (f s.publisher).1.IsCut stream)
    (hq : (f s.publisher).1.Sound)
    (hg : Publisher.Grows s.publisher.records.size s.publisher (f s.publisher).1)
    (hu : s.publisher.Updates (f s.publisher).1 D F) (hhand : hand'.Sublist hand)
    (hdone : ∀ id, D id → id ∉ s.awaited ∧ id ∉ hand')
    (hfinal : ∀ id r, F id → s.publisher.record? id = some (.items r) → r.stream ∈ (f s.publisher).2)
    (hleft : ∀ id ∈ hand, id ∉ hand' → (∀ r, (f s.publisher).1.record? id = some (.items r) → r.completed = true) ∧
      ∀ fragment r, (f s.publisher).1.record? fragment = some r → id ∉ r.unfinished) :
    Sound hand' (s.publishAndClose f) := by
  obtain ⟨ht, hs, -⟩ := closeStreams_eq (s.withPublisher (f s.publisher).1) (f s.publisher).2
  have htasks : (s.withPublisher (f s.publisher).1).tasks = s.tasks := by
    show s.work.ready ++ s.work.waiting ++ (f s.publisher).1.inbox = _
    rw [hu.inbox]
    rfl
  rw [htasks] at ht
  refine h.update (f s.publisher).2 hs ht hcut hq hg hu hhand hdone (fun id r hid hr g hg heq => ?_) hleft
  have hmem : Task.fetch g ∈ ((s.withPublisher (f s.publisher).1).closeStreams (f s.publisher).2).tasks := hg
  rw [ht] at hmem
  have hall := (List.mem_filter.1 hmem).2
  rw [List.all_eq_true] at hall
  exact of_decide_eq_true (hall r.stream (hfinal id r hid hr)) (congrArg some heq)

theorem Sound.filter (h : Sound hand s) (path : Path) (id : RecordId) :
    Sound hand (s.publishAndClose fun p => p.filter path id) :=
  h.publishAndClose (D := fun _ => False) (F := fun _ => False) (fun _ => Publisher.isCut_filter)
    (h.publisher.filter path id) (Publisher.Grows.filter _ path id) (Publisher.Updates.filter _ path id)
    (List.Sublist.refl _) (fun _ => False.elim) (fun _ _ => False.elim) fun _ hid hnot => absurd hid hnot

theorem Sound.error {id : RecordId} (h : Sound hand s) (e : Error) (hid : s.publisher.IsHome id) :
    Sound hand (s.withPublisher (s.publisher.addError id e)) := by
  refine h.withPublisher (D := fun _ => False) (F := fun _ => False) (h.publisher.addError ?_ e)
    (Publisher.Grows.addError _ id e) (Publisher.Updates.addError _ id e) (List.Sublist.refl _) (fun _ => False.elim)
    (fun _ _ => False.elim) fun _ hid hnot => absurd hid hnot
  rintro ⟨r, hr⟩
  obtain ⟨r', hr', hnot⟩ := hid
  rw [hr] at hr'
  cases hr'
  exact hnot r rfl

theorem Sound.final {stream : StreamId} {id : RecordId} (h : Sound hand s) (hlast : s.publisher.Tail stream id)
    (hidle : s.Idle stream) : Sound hand (s.withPublisher (s.publisher.setFinal id)) := by
  refine h.withPublisher (D := fun _ => False) (F := (· = id)) (h.publisher.setFinal id)
    (Publisher.Grows.setFinal _ id) (Publisher.Updates.setFinal _ rfl) (List.Sublist.refl _) (fun _ => False.elim)
    (fun j r hj hr => ?_) fun _ hid hnot => absurd hid hnot
  obtain ⟨⟨r₀, hr₀, hs₀, -⟩, -⟩ := hlast
  rw [show j = id from hj, hr₀] at hr
  cases hr
  rw [hs₀]
  exact hidle

theorem Sound.completeSet {id : RecordId} (h : Sound (id :: hand) s) (data : Json) (hid : s.publisher.IsFieldSet id) :
    Sound hand (s.withPublisher (s.publisher.completeFieldSet id data)) := by
  have hg : Publisher.Grows s.publisher.records.size s.publisher (s.publisher.completeFieldSet id data) :=
    Publisher.Grows.completeFieldSet _ id data
  exact h.withPublisher (D := fun _ => False) (F := fun _ => False) (h.publisher.completeFieldSet id data) hg
    (Publisher.Updates.completeFieldSet _ id data) (List.sublist_cons_self _ _) (fun _ => False.elim)
    (fun _ _ => False.elim) (left_fieldSet (hg.isFieldSet hid) fun fragment r hr =>
      Publisher.not_unfinished_completeFieldSet h.publisher.linked data hr)

theorem Sound.failSet {id : RecordId} (h : Sound (id :: hand) s) (e : Error) (hid : s.publisher.IsFieldSet id) :
    Sound hand (s.withPublisher (s.publisher.failFieldSet id e)) := by
  have hg : Publisher.Grows s.publisher.records.size s.publisher (s.publisher.failFieldSet id e) :=
    Publisher.Grows.failFieldSet _ id e
  exact h.withPublisher (D := fun _ => False) (F := fun _ => False) (h.publisher.failFieldSet id e) hg
    (Publisher.Updates.failFieldSet _ id e) (List.sublist_cons_self _ _) (fun _ => False.elim)
    (fun _ _ => False.elim) (left_fieldSet (hg.isFieldSet hid) fun fragment r hr =>
      Publisher.not_unfinished_failFieldSet h.publisher.linked e hr)

theorem Sound.completeItems {id : RecordId} (h : Sound (id :: hand) s) (items : List Json)
    (hid : s.publisher.IsItems id) : Sound hand (s.withPublisher (s.publisher.completeItems id items)) := by
  have hq := h.publisher.completeItems id items
  refine h.withPublisher (D := (· = id)) (F := fun _ => False) hq (Publisher.Grows.completeItems _ id items)
    (Publisher.Updates.completeItems _ items rfl) (List.sublist_cons_self _ _)
    (fun j hj => by rw [show j = id from hj]; exact h.not_mem_hand) (fun _ _ => False.elim)
    (left_items hq.linked fun r hr => ?_)
  obtain ⟨r₀, hr₀⟩ := hid
  rw [Publisher.record?_completeItems hr₀] at hr
  exact ⟨_, (Option.some.inj hr).symm, rfl⟩

theorem Sound.retireItems {id : RecordId} (h : Sound (id :: hand) s) (hid : s.publisher.IsItems id) :
    Sound hand (s.withPublisher (s.publisher.retireItems id)) := by
  have hq := h.publisher.retireItems id
  refine h.withPublisher (D := (· = id)) (F := fun _ => False) hq (Publisher.Grows.retireItems _ id)
    (Publisher.Updates.retireItems _ rfl) (List.sublist_cons_self _ _)
    (fun j hj => by rw [show j = id from hj]; exact h.not_mem_hand) (fun _ _ => False.elim)
    (left_items hq.linked fun r hr => ?_)
  obtain ⟨r₀, hr₀⟩ := hid
  rw [Publisher.record?_retireItems hr₀] at hr
  exact ⟨_, (Option.some.inj hr).symm, rfl⟩

/-- Only one task fetches the items of a stream. -/
theorem Sound.idle {stream : StreamId} {id : RecordId} (h : Sound (id :: hand) s)
    (hlast : s.publisher.Tail stream id) : s.Idle stream := by
  rintro f hf rfl
  obtain ⟨⟨⟨r, hr, hs, -⟩, hle⟩, -⟩ := h.accepts _ hf
  obtain ⟨⟨r', hr', hs', -⟩, hle'⟩ := hlast
  have heq : f.record = id :=
    RecordId.index_inj.1 (Nat.le_antisymm (hle' f.record r hr hs).1 (hle id r' hr' hs').1)
  exact h.not_mem_hand.1 (mem_awaited.2 ⟨.fetch f, hf, heq⟩)

theorem Sound.endItems {stream : StreamId} {id : RecordId} (h : Sound (id :: hand) s)
    (hlast : s.publisher.Tail stream id) :
    Sound hand (s.withPublisher ((s.publisher.setEnd id).completeItems id [])) := by
  have hq := (h.publisher.setEnd id).completeItems id []
  have hu : s.publisher.Updates ((s.publisher.setEnd id).completeItems id []) (· = id) (· = id) :=
    Publisher.Updates.trans (Publisher.Updates.setEnd _ rfl) (Publisher.Updates.completeItems _ [] rfl)
  have hidle := h.idle hlast
  obtain ⟨⟨r₀, hr₀, hs₀, -⟩, -⟩ := hlast
  refine h.withPublisher hq ((Publisher.Grows.setEnd _ id).trans (Publisher.Grows.completeItems _ id [])) hu
    (List.sublist_cons_self _ _) (fun j hj => by rw [show j = id from hj]; exact h.not_mem_hand) (fun j r hj hr => ?_)
    (left_items hq.linked fun r hr => ?_)
  · rw [show j = id from hj, hr₀] at hr
    cases hr
    rw [hs₀]
    exact hidle
  · rw [Publisher.record?_completeItems (Publisher.record?_setEnd hr₀)] at hr
    exact ⟨_, (Option.some.inj hr).symm, rfl⟩

theorem Sound.failItems {listPath : Path} {id : RecordId} (h : Sound (id :: hand) s) (e : Error)
    (hid : s.publisher.IsItems id) :
    Sound hand ((s.publishAndClose fun p => p.filter listPath id).publishAndClose fun p => p.failItems id e) := by
  have h' : Sound (id :: hand) (s.publishAndClose fun p => p.filter listPath id) := h.filter listPath id
  have hsame := (closeStreams_eq (s.withPublisher (s.publisher.filter listPath id).1)
    (s.publisher.filter listPath id).2).2.1
  have hg : Publisher.Grows 0 s.publisher (s.publishAndClose fun p => p.filter listPath id).publisher :=
    (Publisher.Grows.filter s.publisher listPath id).trans (hsame.grows 0)
  obtain ⟨r, hr⟩ := hid
  obtain ⟨r', hr', hgr⟩ := hg.records id _ hr
  cases hgr with
  | @items _ r' hstream =>
    have hq := h'.publisher.failItems id e
    refine h'.publishAndClose (f := fun p => p.failItems id e) (D := (· = id)) (F := (· = id))
      (fun stream => Publisher.isCut_failItems h'.publisher.linked) hq (Publisher.Grows.failItems _ id e)
      (Publisher.Updates.failItems _ e rfl rfl) (List.sublist_cons_self _ _)
      (fun j hj => by rw [show j = id from hj]; exact h'.not_mem_hand) (fun j r₁ hj hr₁ => ?_)
      (left_items hq.linked fun r₁ hr₁ => ?_)
    · rw [show j = id from hj] at hr₁
      exact Publisher.mem_failItems hr₁ e
    · rw [Publisher.record?_failItems hr'] at hr₁
      exact ⟨_, (Option.some.inj hr₁).symm, rfl⟩

/-- A new stream has no records, and no task fetches its items. -/
theorem Sound.newStream (h : Sound hand s) (path : Path) (label : Option String) (hook : Option HookId) :
    (s.publisher.addStream path label hook).1.Unused (s.publisher.addStream path label hook).2 ∧
      s.Idle (s.publisher.addStream path label hook).2 := by
  have hnone : s.publisher.stream? ⟨s.publisher.streams.size⟩ = none := Array.getElem?_eq_none (Nat.le_refl _)
  constructor
  · intro id r hr heq
    obtain ⟨st, hst⟩ := h.publisher.linked.streams id r hr
    rw [heq, show (s.publisher.addStream path label hook).2 = ⟨s.publisher.streams.size⟩ from rfl, hnone] at hst
    exact absurd hst (by simp)
  · intro f hf heq
    obtain ⟨-, st, hst, -⟩ := h.accepts _ hf
    rw [heq, show (s.publisher.addStream path label hook).2 = ⟨s.publisher.streams.size⟩ from rfl, hnone] at hst
    exact absurd hst (by simp)

end Stage

open Stage in
/-- Every move keeps a task for each open record. -/
theorem Move.sound {hand hand' : List RecordId} {s s' : ExecStage} (m : Move hand s hand' s') (h : Sound hand s) :
    Sound hand' s' := by
  have hl := h.publisher.linked
  cases m with
  | reorder hhand hsame htasks => exact h.reorder hhand hsame htasks
  | take hsame htasks => exact h.take hsame htasks
  | rest htask hsame htasks => exact h.rest htask hsame htasks
  | fragment path label hparent =>
    exact h.add (Publisher.Adds.addFragment hl path label hparent) (h.publisher.addFragment path label hparent)
      (Publisher.Grows.addFragment _ path label _) (Or.inl ⟨rfl, _, rfl⟩)
  | fieldSet path hfragments =>
    exact h.add (Publisher.Adds.addFieldSet path hfragments) (h.publisher.addFieldSet path hfragments)
      (Publisher.Grows.addFieldSet _ path _) (Or.inr ⟨rfl, Or.inl ⟨_, rfl⟩⟩)
  | stream path label hook =>
    exact h.withPublisher (D := fun _ => False) (F := fun _ => False) (h.publisher.addStream path label hook)
      (Publisher.Grows.addStream _ path label hook) ⟨rfl, rfl, fun _ r hr => ⟨r, hr, rfl, Or.inl, Or.inl⟩⟩
      (List.Sublist.refl _) (fun _ => False.elim) (fun _ _ => False.elim) fun _ hid hnot => absurd hid hnot
  | items hparent hpath hlast hidle =>
    obtain ⟨st, hst, -⟩ := hpath
    exact h.add (Publisher.Adds.addItems hl _ _ hparent) (h.publisher.addItems ⟨st, hst⟩ _ hparent)
      (Publisher.Grows.addItems _ _ _ _) (Or.inr ⟨rfl, Or.inr ⟨_, rfl, rfl, hidle⟩⟩)
  | error e hid => exact h.error e hid
  | filter path id => exact h.filter path id
  | final hlast hidle => exact h.final hlast hidle
  | completeSet data hid => exact h.completeSet data hid
  | failSet e hid => exact h.failSet e hid
  | completeItems items hid => exact h.completeItems items hid
  | failItems e hid =>
    obtain ⟨r, -, hr, -⟩ := hid
    exact h.failItems e ⟨r, hr⟩
  | endItems hlast => exact h.endItems hlast
  | retireItems hid => exact h.retireItems hid

theorem Moves.sound {hand hand' : List RecordId} {s s' : ExecStage} (m : Moves hand s hand' s')
    (h : Stage.Sound hand s) : Stage.Sound hand' s' := by
  induction m with
  | refl => exact h
  | step _ m ih => exact m.sound ih

end GraphQL
