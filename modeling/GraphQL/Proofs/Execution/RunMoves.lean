import GraphQL.Proofs.Execution.CompletionMoves

/-!
# Running jobs and tasks works by moves

Running a job, and running a task with its record in hand, is a series of moves.  A task that is done has let go of its
record; one that waits belongs to the record that is in hand then.
-/

namespace GraphQL

open Execution Stage

/-- The sites of the job that waits have a property. -/
def Ran.Sites (P : RecordId → DeferMap → Prop) : Ran → Prop
  | .done _ => True
  | .waiting job => job.Sites P

theorem quiet_pollStream (source : ItemStream) : Quiet (pollStream source) fun _ => True := by
  have hadvance : ∀ (s : ExecStage) (timer : Option Timer) (steps : List (StreamStep Resolved)),
      s.Beside (source.advance Resolved.isError s timer steps).1 := by
    intro s timer steps
    induction steps generalizing s timer with
    | nil =>
      unfold ItemStreamOf.advance
      split <;> exact Beside.refl s
    | cons step rest ih =>
      cases step with
      | item outcome =>
        unfold ItemStreamOf.advance
        exact Beside.refl s
      | wait ticks =>
        have hb : s.Beside (s.pollTimer (timer.getD (.fresh ticks))).1 :=
          (quiet_pollTimer (timer.getD (.fresh ticks)) s _ _ rfl).1
        unfold ItemStreamOf.advance
        split
        · rename_i s' heq
          rw [heq] at hb
          exact hb.trans (ih s' none)
        · rename_i s' timer' heq
          rw [heq] at hb
          exact hb
  intro s
  have hpoll : s.Beside (source.poll Resolved.isError s).1 := by
    unfold ItemStreamOf.poll
    split
    · exact Beside.refl s
    · exact hadvance s _ _
  exact Leads.bind (Leads.get (Leads.bind (Leads.set (Leads.pure ⟨hpoll.trans (noteOpened_beside _ _), trivial⟩))))

variable {id : RecordId} {hand : List RecordId} {s : ExecStage}

/-! ### Children -/

section Children

variable {run : Job → ExecM Ran}
  (hrun : ∀ job (s : ExecStage), job.Sites (s.publisher.Serves id) → Works (run job) hand s fun out hand' s' =>
    hand' = hand ∧ out.Sites (s'.publisher.Serves id))

include hrun

theorem works_runFew (slots : List (Slot Job)) (hslots : Job.SitesOfSlots (s.publisher.Serves id) slots) :
    Works (runFew run slots) hand s fun out hand' s' =>
      hand' = hand ∧ ∀ slots', out = .ok slots' → Job.SitesOfSlots (s'.publisher.Serves id) slots' := by
  induction slots generalizing s with
  | nil => exact Works.pure ⟨rfl, fun slots' heq => by cases heq; trivial⟩
  | cons slot rest ih =>
    cases slot with
    | finished outcome =>
      refine Works.bind (ih hslots) ?_
      rintro out _ s' - ⟨rfl, hout⟩
      refine Works.pure ⟨rfl, fun slots' heq => ?_⟩
      cases out with
      | error e => exact absurd heq (by simp [Except.map])
      | ok rest' => cases heq; exact hout rest' rfl
    | running job =>
      unfold runFew
      refine Works.bind (hrun job s hslots.1) ?_
      rintro out _ s' hg ⟨rfl, hout⟩
      have hrest : Job.SitesOfSlots (s'.publisher.Serves id) rest :=
        Job.SitesOfSlots.imp (fun _ _ h => hg.serves h) rest hslots.2
      cases out with
      | done outcome =>
        cases outcome with
        | error e =>
          exact Works.quiet_bind (quiet_noteClosed _) fun _ s'' _ _ _ =>
            Works.pure ⟨rfl, fun slots' heq => absurd heq (by simp)⟩
        | ok v =>
          refine Works.bind (ih hrest) ?_
          rintro out _ s'' - ⟨rfl, hout'⟩
          refine Works.pure ⟨rfl, fun slots' heq => ?_⟩
          cases out with
          | error e => exact absurd heq (by simp [Except.map])
          | ok rest' => cases heq; exact hout' rest' rfl
      | waiting job' =>
        refine Works.bind (ih hrest) ?_
        rintro out _ s'' hg' ⟨rfl, hout'⟩
        cases out with
        | error e =>
          exact Works.quiet_bind (quiet_noteClosed _) fun _ s₃ _ _ _ =>
            Works.pure ⟨rfl, fun slots' heq => absurd heq (by simp)⟩
        | ok rest' =>
          refine Works.pure ⟨rfl, fun slots' heq => ?_⟩
          cases heq
          exact ⟨hg'.sites hout, hout' rest' rfl⟩

theorem works_runMany (order : List Nat) (slots : List (Slot Job))
    (hslots : Job.SitesOfSlots (s.publisher.Serves id) slots) :
    Works (runMany run order slots) hand s fun out hand' s' =>
      hand' = hand ∧ ∀ slots', out = .ok slots' → Job.SitesOfSlots (s'.publisher.Serves id) slots' := by
  induction order generalizing slots s with
  | nil => exact Works.pure ⟨rfl, fun slots' heq => by cases heq; exact hslots⟩
  | cons i order ih =>
    unfold runMany
    split
    · rename_i job hjob
      refine Works.bind (hrun job s (Job.sitesOfSlots_iff.1 hslots job (List.mem_of_getElem? hjob))) ?_
      rintro out _ s' hg ⟨rfl, hout⟩
      have hslots' : Job.SitesOfSlots (s'.publisher.Serves id) slots :=
        Job.SitesOfSlots.imp (fun _ _ h => hg.serves h) slots hslots
      have hset : ∀ slot, (∀ job, slot = .running job → job.Sites (s'.publisher.Serves id)) →
          Job.SitesOfSlots (s'.publisher.Serves id) (slots.set i slot) := by
        intro slot hslot
        rw [Job.sitesOfSlots_iff] at hslots' ⊢
        intro job hjob
        rcases List.mem_or_eq_of_mem_set hjob with hjob | heq
        · exact hslots' job hjob
        · exact hslot job heq.symm
      cases out with
      | waiting job' => exact ih _ (hset _ fun job heq => by cases heq; exact hout)
      | done outcome =>
        dsimp only
        split
        · exact ih _ (hset _ fun job heq => absurd heq (by simp))
        · exact Works.quiet_bind (quiet_noteClosed _) fun _ s'' _ _ _ =>
            Works.pure ⟨rfl, fun slots' heq => absurd heq (by simp)⟩
    · exact ih slots hslots

omit hrun in
/-- What is made of children that were run. -/
theorem works_assemble (shape : Shape) (out : Except Error (List (Slot Job)))
    (hout : ∀ slots, out = .ok slots → Job.SitesOfSlots (s.publisher.Serves id) slots) :
    Works (match out with
      | .error e => return Ran.done (.error e)
      | .ok slots =>
        match slots.mapM Slot.value? with
        | some values => return Ran.done (.ok (shape.assemble values))
        | none => return Ran.waiting (.gather shape true slots)) hand s fun out hand' s' =>
      hand' = hand ∧ out.Sites (s'.publisher.Serves id) := by
  cases out with
  | error e => exact Works.pure ⟨rfl, trivial⟩
  | ok slots =>
    dsimp only
    split
    · exact Works.pure ⟨rfl, trivial⟩
    · exact Works.pure ⟨rfl, hout slots rfl⟩

theorem works_runChildren (shape : Shape) (started : Bool) (slots : List (Slot Job))
    (hslots : Job.SitesOfSlots (s.publisher.Serves id) slots) :
    Works (runChildren run shape started slots) hand s fun out hand' s' =>
      hand' = hand ∧ out.Sites (s'.publisher.Serves id) := by
  unfold runChildren
  dsimp only
  split
  · refine Works.bind (works_runFew hrun slots hslots) ?_
    rintro out _ s' - ⟨rfl, hout⟩
    exact works_assemble shape out hout
  · refine Works.get_bind (Works.bind (works_runMany hrun _ slots hslots) ?_)
    rintro out _ s' - ⟨rfl, hout⟩
    exact works_assemble shape out hout

end Children

theorem works_takeItems (itemType : TypeRef) {site : Site} (usage : Option StreamUsage) (count : Nat)
    (source : ItemStream) (items : List Job) (hsite : s.publisher.Serves id site.record site.deferMap)
    (hitems : ∀ job ∈ items, job.Sites (s.publisher.Serves id)) :
    Works (takeItems itemType site usage count source items) hand s fun out hand' s' =>
      hand' = hand ∧ ∀ job, out = .ok job → job.Sites (s'.publisher.Serves id) := by
  induction count generalizing source items s with
  | zero =>
    refine Works.pure ⟨rfl, fun job heq => ?_⟩
    cases heq
    exact ⟨hsite, Job.sitesOfJobs_iff.2 hitems⟩
  | succ count ih =>
    have hgathered : ∀ s' : ExecStage, Publisher.Grows 0 s.publisher s'.publisher → ∀ job,
        (Except.ok (.gather .list false (items.reverse.map .running)) : Except Error Job) = .ok job →
          job.Sites (s'.publisher.Serves id) := by
      intro s' hg job heq
      cases heq
      exact Job.sites_gather .list false fun job hjob => hg.sites (hitems job (List.mem_reverse.1 hjob))
    unfold takeItems
    dsimp only
    split
    · refine Works.bind (works_spawnFetcher itemType _ source _ hsite) ?_
      rintro - _ s' hg rfl
      exact Works.pure ⟨rfl, hgathered s' hg⟩
    · refine Works.quiet_bind (quiet_pollStream source) fun polled s' hp _ _ => ?_
      have hg : Publisher.Grows 0 s.publisher s'.publisher := by
        rw [hp]
        exact Publisher.Grows.refl _
      have hsite' := hg.serves hsite
      have hitems' : ∀ job ∈ items, job.Sites (s'.publisher.Serves id) := fun job hjob => hg.sites (hitems job hjob)
      split
      · refine Works.pure ⟨rfl, fun job heq => ?_⟩
        cases heq
        exact ⟨hsite', Job.sitesOfJobs_iff.2 hitems'⟩
      · exact Works.quiet_bind (quiet_noteEnded _) fun _ s'' hp' _ _ =>
          Works.pure ⟨rfl, hgathered s'' (by rw [hp', hp]; exact Publisher.Grows.refl _)⟩
      · exact Works.quiet_bind (quiet_noteEnded _) fun _ s'' _ _ _ =>
          Works.quiet_bind (quiet_noteClosed _) fun _ s₃ _ _ _ =>
            Works.pure ⟨rfl, fun job heq => absurd heq (by simp)⟩
      · refine ih _ _ hsite' fun job hjob => ?_
        rcases List.mem_cons.1 hjob with rfl | hjob
        · exact ⟨hsite', hsite'⟩
        · exact hitems' job hjob

/-! ### Jobs -/

theorem works_run (c : ExecutionContext) (fuel : Nat) (job : Job) (hjob : job.Sites (s.publisher.Serves id)) :
    Works (job.run c fuel) hand s fun out hand' s' => hand' = hand ∧ out.Sites (s'.publisher.Serves id) := by
  induction fuel generalizing job s with
  | zero => exact Works.failure
  | succ fuel ih =>
    unfold Job.run
    cases job with
    | failed e => exact Works.pure ⟨rfl, trivial⟩
    | field type site value =>
      refine Works.bind (ih value hjob.2) ?_
      rintro out _ s' hg ⟨rfl, hout⟩
      cases out with
      | waiting value' => exact Works.pure ⟨rfl, hg.serves hjob.1, hout⟩
      | done outcome =>
        cases outcome with
        | ok v => exact Works.pure ⟨rfl, trivial⟩
        | error e =>
          refine Works.bind (works_absorb type (hg.serves hjob.1) e) ?_
          rintro out _ s'' - rfl
          exact Works.pure ⟨rfl, trivial⟩
    | complete type site value =>
      refine Works.bind (works_completeValue c type value hjob) ?_
      rintro progress _ s' - ⟨rfl, hprogress⟩
      cases progress with
      | done outcome => exact Works.pure ⟨rfl, trivial⟩
      | go job => exact ih job hprogress
    | await type site timer outcome =>
      refine Works.quiet_bind (quiet_pollTimer timer) fun timer? s' hp _ _ => ?_
      have hsite : s'.publisher.Serves id site.record site.deferMap := by
        rw [hp]
        exact hjob
      split
      · exact Works.pure ⟨rfl, hsite⟩
      · exact Works.pure ⟨rfl, trivial⟩
      · exact Works.quiet_bind (quiet_noteOpened _) fun _ s'' hp' _ _ => ih _ (by rw [hp']; exact hsite)
    | nonNull info value =>
      refine Works.bind (ih value hjob) ?_
      rintro out _ s' hg ⟨rfl, hout⟩
      cases out with
      | waiting value' => exact Works.pure ⟨rfl, hout⟩
      | done outcome =>
        cases outcome with
        | error e => exact Works.pure ⟨rfl, trivial⟩
        | ok v =>
          dsimp only
          split <;> exact Works.pure ⟨rfl, trivial⟩
    | gather shape started children =>
      exact works_runChildren (fun job s' hsites => ih job hsites) shape started children hjob
    | iterate type site usage source items =>
      refine Works.bind (works_takeItems type usage _ source items hjob.1 (Job.sitesOfJobs_iff.1 hjob.2)) ?_
      rintro out _ s' - ⟨rfl, hout⟩
      split
      · exact Works.pure ⟨rfl, trivial⟩
      · exact Works.pure ⟨rfl, hout _ rfl⟩
      · exact ih _ (hout _ rfl)
    | select fields =>
      refine Works.quiet_bind (quiet_selectFields c hjob) fun job s' hp _ hsites => ih job ?_
      rw [hp]
      exact hsites
    | serial fields done current remaining =>
      cases current with
      | none =>
        cases remaining with
        | nil => exact Works.pure ⟨rfl, trivial⟩
        | cons field rest =>
          refine Works.quiet_bind (quiet_fieldJob c hjob field.1 field.2) fun job? s' hp _ hsites => ?_
          rw [← hp] at hjob hsites
          cases job? with
          | none => exact ih _ hjob
          | some job => exact ih (.serial fields done (some (field.1, job)) rest) ⟨hjob, hsites job rfl⟩
      | some current =>
        obtain ⟨key, job⟩ := current
        refine Works.bind (ih job hjob.2) ?_
        rintro out _ s' hg ⟨rfl, hout⟩
        cases out with
        | waiting job' => exact Works.pure ⟨rfl, hg.serves hjob.1, hout⟩
        | done outcome =>
          cases outcome with
          | error e => exact Works.pure ⟨rfl, trivial⟩
          | ok v => exact ih (.serial fields (done ++ [(key, v)]) none remaining) (hg.serves hjob.1)

/-! ### Tasks -/

/-- A task that ran is done, or it waits and belongs to the record in hand. -/
def Task.Rests (hand : List RecordId) (task? : Option Task) (hand' : List RecordId) (s' : ExecStage) : Prop :=
  match task? with
  | none => hand' = hand
  | some task => hand' = task.record :: hand ∧ s'.publisher.Accepts task

/-- Items fail, after what was to be delivered below the list is filtered. -/
theorem works_failItems {listPath : Path} (e : Error) (hid : s.publisher.AwaitsItem listPath id) :
    Works (do
      Execution.publishAndClose fun p => p.filter listPath id
      Execution.publishAndClose fun p => p.failItems id e
      return none) (id :: hand) s (Task.Rests hand) :=
  fun _ => Leads.bind (Leads.modify (Leads.bind (Leads.modify (Leads.pure
    ⟨hand, Moves.of_move (Move.failItems e hid), rfl⟩))))

theorem quiet_retire (hook : HookId) : Quiet (modify (fun s => s.retire hook) : ExecM PUnit) fun _ => True := by
  refine Quiet.modify fun s => ?_
  unfold retire
  split <;> exact ⟨rfl, rfl, rfl⟩

theorem quiet_fire (hook : HookId) : Quiet (modify (fun s => s.fire hook) : ExecM PUnit) fun _ => True := by
  refine Quiet.modify fun s => ?_
  unfold fire
  split <;> exact ⟨rfl, rfl, rfl⟩

/-- An item came from the stream: its task is spawned, and the next record of the stream is reported. -/
theorem works_fetched {f : Fetcher} (source : ItemStream) (item : FieldValue)
    (hf : s.publisher.Accepts (.fetch f)) :
    Works (do
      Execution.spawn (.item f.path f.record
        (streamedItemJob f.itemType f.group f.info (f.path.index f.index) f.record item))
      publish fun p => p.addItems f.stream (f.path.index (f.index + 1)) f.record)
      (f.record :: hand) s fun next hand' s' => hand' = next :: hand ∧
        s'.publisher.Accepts (.fetch { f with source := source, index := f.index + 1, record := next }) := by
  have hawaits := hf.awaitsItem
  obtain ⟨htail, st, hst, hpath⟩ := hf
  refine Works.sound fun hs => ?_
  have hidle := hs.idle htail
  refine Works.bind (Works.spawn (.item f.path f.record _) ⟨hawaits, sites_streamedItemJob hawaits.isItems.isHome⟩
    (Q := fun _ hand' s' => hand' = hand ∧ s'.publisher.Tail f.stream f.record ∧ s'.Idle f.stream ∧
      s'.publisher.stream? f.stream = some st) fun hsame htasks => ⟨rfl, hsame.tail htail, fun g hg => ?_, ?_⟩) ?_
  · rw [htasks] at hg
    rcases List.mem_append.1 hg with hg | hg
    · exact hidle g hg
    · exact absurd (List.mem_singleton.1 hg) (by simp)
  · rw [hsame.stream?]
    exact hst
  · rintro - _ s₁ hg ⟨rfl, htail₁, hidle₁, hst₁⟩
    refine Works.sound fun hs₁ => ?_
    have hparent := (hg.isHome hawaits.isItems.isHome).lt_size
    have ha := Publisher.Adds.addItems hs₁.publisher.linked f.stream (f.path.index (f.index + 1)) hparent
    obtain ⟨st₂, hst₂, hpath₂, -⟩ := (Publisher.Grows.addItems s₁.publisher f.stream (f.path.index (f.index + 1))
      f.record).streams f.stream st hst₁
    exact Works.publish (Move.items hparent ⟨st, hst₁, f.index + 1, by rw [hpath]⟩ (Or.inr htail₁) hidle₁)
      ⟨rfl, ha.tail rfl rfl f.record (Or.inr htail₁), st₂, hst₂, hpath₂.trans hpath⟩

theorem works_fetchItems (count : Nat) {f : Fetcher} (hf : s.publisher.Accepts (.fetch f)) :
    Works (fetchItems count f) (f.record :: hand) s (Task.Rests hand) := by
  induction count generalizing f s with
  | zero => exact Works.pure ⟨rfl, hf⟩
  | succ count ih =>
    unfold fetchItems
    refine Works.quiet_bind (quiet_pollStream f.source) fun polled s₁ hp₁ _ _ => ?_
    rw [← hp₁] at hf
    obtain ⟨source, polled⟩ := polled
    dsimp only
    split
    · exact Works.pure ⟨rfl, hf⟩
    · refine Works.quiet_ite (quiet_retire f.hook) fun s₂ hp₂ => ?_
      rw [← hp₂] at hf
      refine Works.get_bind ?_
      split
      · refine Works.quiet_bind (quiet_noteClosed _) fun _ s' hp' _ _ => ?_
        rw [← hp'] at hf
        have hawaits := hf.awaitsItem
        refine Works.bind (Works.publishUnit (Move.retireItems hawaits.isItems) (Q := fun _ hand' _ => hand' = hand) rfl) ?_
        rintro - _ s₃ - rfl
        exact Works.quiet_bind (quiet_fire _) fun _ s₄ _ _ _ => Works.pure rfl
      · split
        · rw [← bind_assoc]
          refine Works.bind (works_fetched source _ hf) ?_
          rintro next _ s₃ - ⟨rfl, hnext⟩
          exact ih hnext
        · exact works_failItems _ hf.awaitsItem
        · exact Works.bind (Works.publishUnit (Move.endItems hf.1) (Q := fun _ hand' _ => hand' = hand) rfl)
            fun _ _ s₃ _ heq => Works.pure heq

theorem works_task (c : ExecutionContext) (fuel : Nat) {task : Task} (htask : s.publisher.Accepts task) :
    Works (task.run c fuel) (task.record :: hand) s (Task.Rests hand) := by
  cases task with
  | fieldSet path id data =>
    unfold Task.run
    refine Works.bind (works_run c fuel data htask.2) ?_
    rintro out _ s' hg ⟨rfl, hout⟩
    have hid := hg.isFieldSet htask.1
    cases out with
    | waiting data' => exact Works.pure ⟨rfl, hid, hout⟩
    | done outcome =>
      cases outcome with
      | ok v =>
        exact Works.bind (Works.publishUnit (Move.completeSet v hid) (Q := fun _ hand' _ => hand' = hand) rfl)
          fun _ _ s'' _ heq => Works.pure heq
      | error e =>
        refine Works.bind (Works.modify (Moves.of_move (Move.filter path id))
          (Q := fun _ hand' _ => hand' = id :: hand) rfl) ?_
        rintro - _ s'' hg' rfl
        exact Works.bind (Works.publishUnit (Move.failSet e (hg'.isFieldSet hid))
          (Q := fun _ hand' _ => hand' = hand) rfl) fun _ _ s₃ _ heq => Works.pure heq
  | item listPath id value =>
    unfold Task.run
    refine Works.bind (works_run c fuel value htask.2) ?_
    rintro out _ s' hg ⟨rfl, hout⟩
    obtain ⟨r, st, hr, hc, hst, hpath⟩ := htask.1
    refine Works.sound fun hs => ?_
    have hawaits : s'.publisher.AwaitsItem listPath id := by
      obtain ⟨r', hr', hgr⟩ := hg.records id _ hr
      obtain ⟨st', hst', hpath', -⟩ := hg.streams r.stream st hst
      cases hgr with
      | @items _ r' hstream =>
        rcases hs.opened id List.mem_cons_self with ⟨g, hgr⟩ | ⟨r₀, hr₀, hc₀⟩
        · rw [hr'] at hgr
          exact absurd hgr (by simp)
        · rw [hr'] at hr₀
          cases hr₀
          exact ⟨r', st', hr', hc₀, by rw [hstream]; exact hst', hpath'.trans hpath⟩
    cases out with
    | waiting value' => exact Works.pure ⟨rfl, hawaits, hout⟩
    | done outcome =>
      cases outcome with
      | ok v =>
        exact Works.bind (Works.publishUnit (Move.completeItems [v] hawaits.isItems)
          (Q := fun _ hand' _ => hand' = hand) rfl) fun _ _ s'' _ heq => Works.pure heq
      | error e => exact works_failItems e hawaits
  | fetch f => exact works_fetchItems _ htask

end GraphQL
