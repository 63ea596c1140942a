import GraphQL.Proofs.Execution.AlongsideCompletion

/-!
# Jobs and tasks alongside

A job and the one that stands for it get equally far: they come to the same outcome, or wait as jobs that stand for each
other (`alongside_run`).  So do tasks (`alongside_runTask`).
-/

namespace GraphQL

open Execution

variable {c : ExecutionContext} {w : Recollections c} {v : Variation}

/-- How far a job got in both. -/
inductive Ran.Counterpart (w : Recollections c) : Ran → Ran → Prop
  | done (outcome : Except Error Json) : Counterpart w (.done outcome) (.done outcome)
  | waiting {job job'} (h : Job.Counterpart w job job') : Counterpart w (.waiting job) (.waiting job')

/-- Children stand for each other. -/
def Slots.Counterpart (w : Recollections c) : List (Slot Job) → List (Slot Job) → Prop :=
  List.Forall₂ (Slot.Counterpart (Job.Counterpart w))

theorem getElem?_forall₂ {α β : Type} {R : α → β → Prop} {xs : List α} {ys : List β} (h : List.Forall₂ R xs ys) (i : Nat) :
    Option.Rel R xs[i]? ys[i]? := by
  induction h generalizing i with
  | nil => exact .none
  | cons hxy _ ih =>
    cases i with
    | zero => exact .some hxy
    | succ i => exact ih i

theorem set_forall₂ {α β : Type} {R : α → β → Prop} {xs : List α} {ys : List β} (h : List.Forall₂ R xs ys) (i : Nat) {x : α}
    {y : β} (hxy : R x y) : List.Forall₂ R (xs.set i x) (ys.set i y) := by
  induction h generalizing i with
  | nil => exact .nil
  | cons hhead htail ih =>
    cases i with
    | zero => exact .cons hxy htail
    | succ i => exact .cons hhead (ih i)

/-! ### Children -/

namespace Slots.Counterpart

variable {slots slots' : List (Slot Job)} (h : Slots.Counterpart w slots slots')
include h

theorem openStreams_eq : Job.openStreamsOfSlots slots = Job.openStreamsOfSlots slots' := (Job.Counterpart.alikeSlots h).2

theorem firstError?_eq : firstError? slots = firstError? slots' := by
  induction h with
  | nil => rfl
  | cons hslot _ ih =>
    cases hslot with
    | running => rfl
    | finished outcome =>
      cases outcome with
      | error e => rfl
      | ok value => exact ih

theorem values_eq : slots.mapM Slot.value? = slots'.mapM Slot.value? := by
  induction h with
  | nil => rfl
  | cons hslot _ ih =>
    rw [List.mapM_cons, List.mapM_cons, ih]
    cases hslot <;> rfl

theorem runOrder_eq (now : Nat) (started : Bool) : runOrder now started slots = runOrder now started slots' := by
  have hdeadlines : ∀ i : Nat, ((slots[i]?).map Slot.deadlines).getD [] = ((slots'[i]?).map Slot.deadlines).getD [] := by
    intro i
    have hslot := getElem?_forall₂ h i
    generalize slots[i]? = slot? at hslot
    generalize slots'[i]? = slot?' at hslot
    cases hslot with
    | none => rfl
    | some hslot =>
      cases hslot with
      | running hjob => exact hjob.alike.1
      | finished => rfl
  unfold runOrder
  simp only [hdeadlines, h.length_eq]

end Slots.Counterpart

section Children

variable {run run' : Job → ExecM Ran}
  (hrun : ∀ {w : Recollections c} {job job'}, Job.Counterpart w job job' → Alongside w (run job) (run' job') Ran.Counterpart)
include hrun

omit hrun in
/-- A finished child before children that are run. -/
private theorem alongside_finished {slots slots' : List (Slot Job)} (outcome : Except Error Json)
    (h : Alongside w (runFew run slots) (runFew run' slots') fun w' => Outcome.Counterpart (Slots.Counterpart w')) :
    Alongside w (do return (← runFew run slots).map (.finished outcome :: ·))
      (do return (← runFew run' slots').map (.finished outcome :: ·)) fun w' => Outcome.Counterpart (Slots.Counterpart w') := by
  refine h.bind ?_
  rintro w₁ _ _ - (⟨e⟩ | ⟨hslots⟩)
  · exact .pure (.error e)
  · exact .pure (.ok (.cons (.finished outcome) hslots))

theorem alongside_runFew {slots slots' : List (Slot Job)} (h : Slots.Counterpart w slots slots') :
    Alongside w (runFew run slots) (runFew run' slots') fun w' => Outcome.Counterpart (Slots.Counterpart w') := by
  induction slots generalizing w slots' with
  | nil =>
    cases h with
    | nil => exact .pure (.ok .nil)
  | cons slot rest ih =>
    cases h with
    | cons hslot hrest =>
      cases hslot with
      | finished outcome => exact alongside_finished outcome (ih hrest)
      | running hjob =>
        refine (hrun hjob).bind ?_
        rintro w₁ _ _ hlater₁ (⟨outcome⟩ | ⟨hjob₁⟩)
        · have hrest₁ := Job.Counterpart.laterOfSlots hlater₁ hrest
          cases outcome with
          | error e =>
            dsimp only
            rw [Slots.Counterpart.openStreams_eq hrest]
            exact .same (alongside_noteClosed _) fun _ => .pure (.error e)
          | ok value => exact alongside_finished (.ok value) (ih hrest₁)
        · refine (ih (Job.Counterpart.laterOfSlots hlater₁ hrest)).bind ?_
          rintro w₂ _ _ hlater₂ (⟨e⟩ | ⟨hslots⟩)
          · dsimp only
            rw [hjob₁.alike.2]
            exact .same (alongside_noteClosed _) fun _ => .pure (.error e)
          · exact .pure (.ok (.cons (.running (hjob₁.later hlater₂)) hslots))

theorem alongside_runMany (order : List Nat) {slots slots' : List (Slot Job)} (h : Slots.Counterpart w slots slots') :
    Alongside w (runMany run order slots) (runMany run' order slots') fun w' =>
      Outcome.Counterpart (Slots.Counterpart w') := by
  induction order generalizing w slots slots' with
  | nil => exact .pure (.ok h)
  | cons i order ih =>
    have hslot := getElem?_forall₂ h i
    unfold runMany
    generalize slots[i]? = slot? at hslot
    generalize slots'[i]? = slot?' at hslot
    cases hslot with
    | none => exact ih h
    | some hslot =>
      cases hslot with
      | finished outcome => exact ih h
      | running hjob =>
        refine (hrun hjob).bind ?_
        rintro w₁ _ _ hlater₁ (⟨outcome⟩ | ⟨hjob₁⟩)
        · have hset : Slots.Counterpart w₁ (slots.set i (.finished outcome)) (slots'.set i (.finished outcome)) :=
            set_forall₂ (Job.Counterpart.laterOfSlots hlater₁ h) i (.finished outcome)
          dsimp only
          rw [hset.firstError?_eq]
          cases firstError? (slots'.set i (.finished outcome)) with
          | none => exact ih hset
          | some e =>
            dsimp only
            rw [hset.openStreams_eq]
            exact .same (alongside_noteClosed _) fun _ => .pure (.error e)
        · exact ih (set_forall₂ (Job.Counterpart.laterOfSlots hlater₁ h) i (.running hjob₁))

omit hrun in
/-- What children come to is assembled when all of them are finished. -/
private theorem alongside_assemble (shape : Shape) {ran ran' : ExecM (Except Error (List (Slot Job)))}
    (h : Alongside w ran ran' fun w' => Outcome.Counterpart (Slots.Counterpart w')) :
    Alongside w
      (do match ← ran with
        | .error e => return Ran.done (.error e)
        | .ok slots =>
          match slots.mapM Slot.value? with
          | some values => return .done (.ok (shape.assemble values))
          | none => return .waiting (.gather shape true slots))
      (do match ← ran' with
        | .error e => return Ran.done (.error e)
        | .ok slots =>
          match slots.mapM Slot.value? with
          | some values => return .done (.ok (shape.assemble values))
          | none => return .waiting (.gather shape true slots)) Ran.Counterpart := by
  refine h.bind ?_
  rintro w₁ _ _ - (⟨e⟩ | @⟨slots, slots', hslots⟩)
  · exact .pure (.done _)
  · dsimp only
    rw [hslots.values_eq]
    cases slots'.mapM Slot.value? with
    | some values => exact .pure (.done _)
    | none => exact .pure (.waiting (.gather hslots))

theorem alongside_runChildren (shape : Shape) (started : Bool) {slots slots' : List (Slot Job)}
    (h : Slots.Counterpart w slots slots') :
    Alongside w (runChildren run shape started slots) (runChildren run' shape started slots') Ran.Counterpart := by
  unfold runChildren
  rw [h.length_eq]
  by_cases hfew : slots'.length ≤ fewChildren
  · rw [if_pos hfew, if_pos hfew]
    exact alongside_assemble shape (alongside_runFew hrun h)
  · rw [if_neg hfew, if_neg hfew]
    refine alongside_assemble shape (.get fun s s' hs => ?_)
    rw [hs.same.1, h.runOrder_eq]
    exact alongside_runMany hrun _ h

end Children

/-! ### Streams -/

/-- The first items of a stream are taken alike. -/
theorem alongside_takeItems (itemType : TypeRef) {site site' : Site} (hsite : site.Counterpart w site')
    {usage usage' : Option StreamUsage} (husage : Option.Rel (StreamUsage.Counterpart w) usage usage') (count : Nat)
    (source : ItemStream) {items items' : List Job} (hitems : List.Forall₂ (Job.Counterpart w) items items') :
    Alongside w (takeItems itemType site usage count source items) (takeItems itemType site' usage' count source items')
      fun w' => Outcome.Counterpart (Job.Counterpart w') := by
  induction count generalizing source items items' with
  | zero => exact .pure (.ok (.iterate hsite husage hitems))
  | succ count ih =>
    have hgathered : Job.Counterpart w (.gather .list false (items.reverse.map .running))
        (.gather .list false (items'.reverse.map .running)) := .gathered (List.forall₂_reverse_iff.2 hitems)
    have hfilter : Option.Rel (StreamUsage.Counterpart w) (usage.filter (·.initialCount ≤ items.length))
        (usage'.filter (·.initialCount ≤ items'.length)) := by
      rw [← hitems.length_eq]
      cases husage with
      | none => exact .none
      | @some usage usage' h =>
        have hcount : usage'.initialCount = usage.initialCount := by
          obtain ⟨-⟩ := h
          rfl
        rw [Option.filter_some, Option.filter_some, hcount]
        split
        · exact .some h
        · exact .none
    unfold takeItems
    dsimp only
    generalize usage.filter (·.initialCount ≤ items.length) = streamed at hfilter
    generalize usage'.filter (·.initialCount ≤ items'.length) = streamed' at hfilter
    cases hfilter with
    | some h =>
      rw [hitems.length_eq]
      exact .same (alongside_spawnFetcher itemType hsite h source _) fun _ => .pure (.ok hgathered)
    | none =>
      refine .same (alongside_pollStream source) fun polled => ?_
      obtain ⟨source', polled⟩ := polled
      cases polled with
      | waiting => exact .pure (.ok (.iterate hsite husage hitems))
      | ended => exact .same (alongside_noteEnded _) fun _ => .pure (.ok hgathered)
      | item outcome =>
        cases outcome with
        | error e =>
          dsimp only
          rw [Job.Counterpart.openStreamsOfJobs_eq hitems, hsite.groups.locate_eq, hsite.same.2.1]
          exact .same (alongside_noteEnded _) fun _ => .same (alongside_noteClosed _) fun _ => .pure (.error _)
        | ok item =>
          dsimp only
          rw [hitems.length_eq]
          exact ih source' (.cons (hsite.item itemType _ item) hitems)

/-- What is done with what a stream gave to the fetching of its items, once its hook was looked at. -/
private def fetched (count : Nat) (f : Fetcher) (polled : Polled Resolved) : ExecM (Option Task) := do
  if (← get).publisher.streamHasErrors f.stream then
    noteClosed polled.openStreams
    publishUnit fun p => p.retireItems f.record
    modify fun s => s.fire f.hook
    return none
  else
    match polled with
    | .item (.ok item) =>
      let path := f.path.index f.index
      spawn (.item f.path f.record (streamedItemJob f.itemType f.group f.info path f.record item))
      let index := f.index + 1
      let next ← publish fun p => p.addItems f.stream (f.path.index index) f.record
      fetchItems count { f with index := index, record := next }
    | .item (.error e) =>
      publishAndClose fun p => p.filter f.path f.record
      publishAndClose fun p => p.failItems f.record (e.toError.locate f.group f.path)
      return none
    | _ =>
      publishUnit fun p => (p.setEnd f.record).completeItems f.record []
      return none

private theorem alongside_fetched {count : Nat} (f : Fetcher) {group : FieldGroup} (h : f.group.Counterpart w [] [] group)
    (polled : Polled Resolved)
    (hfetch : ∀ (f : Fetcher) {group : FieldGroup}, f.group.Counterpart w [] [] group →
      Alongside w (fetchItems count f) (fetchItems count { f with group := group }) fun w' =>
        Option.Rel (Task.Counterpart w')) :
    Alongside w (fetched count f polled) (fetched count { f with group := group } polled) fun w' =>
      Option.Rel (Task.Counterpart w') := by
  unfold fetched
  refine .get fun s s' hs => ?_
  rw [hs.read (·.streamHasErrors f.stream) fun _ _ => rfl]
  refine .ite Iff.rfl (fun _ => ?_) fun _ => ?_
  · refine .same (alongside_noteClosed _) fun _ => ?_
    refine .same (alongside_publishUnit fun p inbox => p.retireItems_withInbox inbox _) fun _ => ?_
    exact .same (alongside_change fun s inbox work memory => s.fire_dressed inbox work memory _) fun _ => .pure .none
  · cases polled with
    | item outcome =>
      cases outcome with
      | ok item =>
        refine .same (alongside_spawn (.item (h.streamedItem _ _ _ _ _))) fun _ => ?_
        refine .same (alongside_publish fun p inbox => p.addItems_withInbox inbox _ _ _) fun next => ?_
        exact hfetch { f with index := f.index + 1, record := next } h
      | error e =>
        dsimp only
        rw [h.locate_eq]
        refine .same (alongside_publishAndClose fun p inbox => p.filter_withInbox inbox _ _) fun _ => ?_
        exact .same (alongside_publishAndClose fun p inbox => p.failItems_withInbox inbox _ _) fun _ => .pure .none
    | _ =>
      refine .same (alongside_publishUnit fun p inbox => ?_) fun _ => .pure .none
      exact (p.setEnd f.record).completeItems_withInbox inbox _ _

/-- The items of a stream are fetched alike. -/
theorem alongside_fetchItems (count : Nat) (f : Fetcher) {group : FieldGroup} (h : f.group.Counterpart w [] [] group) :
    Alongside w (fetchItems count f) (fetchItems count { f with group := group }) fun w' =>
      Option.Rel (Task.Counterpart w') := by
  induction count generalizing f group with
  | zero => exact .pure (.some (.fetch f h))
  | succ count ih =>
    unfold fetchItems
    refine .same (alongside_pollStream f.source) fun given => ?_
    obtain ⟨source, polled⟩ := given
    have hfetched : ∀ given, Alongside w (fetched count { f with source := source } given)
        (fetched count { f with source := source, group := group } given) fun w' => Option.Rel (Task.Counterpart w') :=
      fun given => alongside_fetched { f with source := source } h given fun f _ hf => ih f hf
    have hretired : ∀ given, Alongside w
        (do
          modify fun s => s.retire f.hook
          fetched count { f with source := source } given)
        (do
          modify fun s => s.retire f.hook
          fetched count { f with source := source, group := group } given) fun w' => Option.Rel (Task.Counterpart w') :=
      fun given => .same (alongside_change fun s inbox work memory => s.retire_dressed inbox work memory _) fun _ =>
        hfetched given
    cases polled with
    | waiting => exact .pure (.some (.fetch { f with source := source } h))
    | ended => exact .ite Iff.rfl (fun _ => hretired .ended) fun _ => hfetched .ended
    | item outcome => exact .ite Iff.rfl (fun _ => hretired (.item outcome)) fun _ => hfetched (.item outcome)

/-! ### Jobs -/

/-- Fields that are resolved one after the other. -/
private theorem alongside_serial {fuel : Nat}
    (ih : ∀ {w : Recollections c} {job job'}, Job.Counterpart w job job' →
      Alongside w (Job.run c fuel job) (v.run c fuel job') Ran.Counterpart)
    {o o' : ObjectFields} {done : List (String × Json)} {current current' : Option (String × Job)}
    {remaining remaining' : GroupedFieldSet}
    (h : Job.Counterpart w (.serial o done current remaining) (.serial o' done current' remaining')) :
    Alongside w (Job.run c (fuel + 1) (.serial o done current remaining))
      (v.run c (fuel + 1) (.serial o' done current' remaining')) Ran.Counterpart := by
  unfold Job.run Variation.run
  cases h with
  | between ho hremaining =>
    cases hremaining with
    | nil => exact .pure (.done _)
    | @cons field field' rest rest' hfield hrest =>
      obtain ⟨key, group⟩ := field
      obtain ⟨key', group'⟩ := field'
      obtain ⟨rfl, hgroup⟩ := hfield
      refine (alongside_fieldJob ho key hgroup).bind ?_
      rintro w₁ _ _ - ⟨rfl, ⟨hjob⟩ | ⟨⟩⟩
      · exact ih (.serial ho hjob hrest)
      · exact ih (.between ho hrest)
  | serial ho hjob hrest =>
    refine (ih hjob).bind ?_
    rintro w₁ _ _ hlater (⟨outcome⟩ | ⟨hjob₁⟩)
    · cases outcome with
      | error e => exact .pure (.done _)
      | ok value => exact ih (.between (ho.later hlater) (hrest.later hlater))
    · exact .pure (.waiting (.serial (ho.later hlater) hjob₁ (hrest.later hlater)))

/-- Jobs that stand for each other get equally far. -/
theorem alongside_run (v : Variation) (fuel : Nat) {job job' : Job} (h : Job.Counterpart w job job') :
    Alongside w (Job.run c fuel job) (v.run c fuel job') Ran.Counterpart := by
  induction fuel generalizing w job job' with
  | zero => exact .failure
  | succ fuel ih =>
    cases h with
    | between ho hremaining => exact alongside_serial ih (.between ho hremaining)
    | serial ho hjob hremaining => exact alongside_serial ih (.serial ho hjob hremaining)
    | failed => exact .pure (.done _)
    | field hsite hvalue =>
      refine (ih hvalue).bind ?_
      rintro w₁ _ _ hlater (⟨outcome⟩ | ⟨hvalue₁⟩)
      · cases outcome with
        | ok value => exact .pure (.done _)
        | error e => exact .same (alongside_absorb _ (hsite.later hlater) e) fun outcome => .pure (.done outcome)
      · exact .pure (.waiting (.field (hsite.later hlater) hvalue₁))
    | complete hsite =>
      refine (alongside_completeValue _ hsite _).bind ?_
      rintro w₁ _ _ - (⟨outcome⟩ | ⟨hjob⟩)
      · exact .pure (.done outcome)
      · exact ih hjob
    | @await type site site' timer outcome hsite =>
      refine .same (alongside_pollTimer timer) fun timer? => ?_
      cases timer? with
      | some timer' => exact .pure (.waiting (.await hsite))
      | none =>
        cases outcome with
        | error e => exact .pure (.done _)
        | ok value => exact .same (alongside_noteOpened _) fun _ => ih (.complete hsite)
    | nonNull hvalue =>
      refine (ih hvalue).bind ?_
      rintro w₁ _ _ - (⟨outcome⟩ | ⟨hvalue₁⟩)
      · cases outcome with
        | error e => exact .pure (.done _)
        | ok value => exact .ite Iff.rfl (fun _ => .pure (.done _)) fun _ => .pure (.done _)
      · exact .pure (.waiting (.nonNull hvalue₁))
    | gather hchildren => exact alongside_runChildren ih _ _ hchildren
    | iterate hsite husage hitems =>
      refine (alongside_takeItems _ hsite husage _ _ hitems).bind ?_
      rintro w₁ _ _ - (⟨e⟩ | ⟨hjob⟩)
      · exact .pure (.done _)
      · have hrun := ih hjob
        cases hjob with
        | iterate hsite husage hitems => exact .pure (.waiting (.iterate hsite husage hitems))
        | _ => exact hrun
    | select ho =>
      refine (alongside_selectFields ho).bind ?_
      rintro w₁ job job' - ⟨rfl, hjob⟩
      exact ih hjob

/-! ### Tasks -/

/-- Tasks that stand for each other get equally far. -/
theorem alongside_runTask (v : Variation) (fuel : Nat) {task task' : Task} (h : task.Counterpart w task') :
    Alongside w (Task.run c fuel task) (v.runTask c fuel task') fun w' => Option.Rel (Task.Counterpart w') := by
  unfold Task.run Variation.runTask
  cases h with
  | fieldSet hdata =>
    refine (alongside_run v fuel hdata).bind ?_
    rintro w₁ _ _ - (⟨outcome⟩ | ⟨hdata₁⟩)
    · cases outcome with
      | ok value => exact .same (alongside_publishUnit fun p inbox => p.completeFieldSet_withInbox inbox _ _) fun _ => .pure .none
      | error e =>
        refine .same (alongside_publishAndClose fun p inbox => p.filter_withInbox inbox _ _) fun _ => ?_
        exact .same (alongside_publishUnit fun p inbox => p.failFieldSet_withInbox inbox _ _) fun _ => .pure .none
    · exact .pure (.some (.fieldSet hdata₁))
  | item hvalue =>
    refine (alongside_run v fuel hvalue).bind ?_
    rintro w₁ _ _ - (⟨outcome⟩ | ⟨hvalue₁⟩)
    · cases outcome with
      | ok value => exact .same (alongside_publishUnit fun p inbox => p.completeItems_withInbox inbox _ _) fun _ => .pure .none
      | error e =>
        refine .same (alongside_publishAndClose fun p inbox => p.filter_withInbox inbox _ _) fun _ => ?_
        exact .same (alongside_publishAndClose fun p inbox => p.failItems_withInbox inbox _ _) fun _ => .pure .none
    · exact .pure (.some (.item hvalue₁))
  | fetch f hgroup => exact alongside_fetchItems _ f hgroup

end GraphQL
