import GraphQL.Proofs.Release.Running

/-!
# Ends that are noted

That a stream came to its end is noted exactly when its source, being asked for an item, turns out to be over or gives an
error: for the first items of a list (`leads_takeItems_poll`, `leads_takeItems_ends`) as for those that are fetched
(`leads_fetchItems_poll`, `leads_fetchItems_ends`).  Whatever else closes streams or drops work notes no end.
-/

namespace GraphQL

open Execution Stage

namespace Stage

/-- The streams that came to their ends, the latest first. -/
def endedNames (s : ExecStage) : List String :=
  s.log.filterMap fun
    | .ended name => some name
    | _ => none

/-- The stream that a hook closes, while it is armed. -/
def hookName (s : ExecStage) (hook : HookId) : List String := (s.hooks[hook.index]?.join).toList

variable {s s' : ExecStage}

/-! ### What notes no end -/

theorem endedNames_noteClosed (s : ExecStage) (names : List String) : (s.noteClosed names).endedNames = s.endedNames :=
  List.foldlRecOn (motive := fun t : ExecStage => t.endedNames = s.endedNames) names _ rfl fun _ ht _ _ => ht

theorem endedNames_noteOpened (s : ExecStage) (names : List String) : (s.noteOpened names).endedNames = s.endedNames :=
  List.foldlRecOn (motive := fun t : ExecStage => t.endedNames = s.endedNames) names _ rfl fun _ ht _ _ => ht

theorem endedNames_fire (s : ExecStage) (hook : HookId) : (s.fire hook).endedNames = s.endedNames := by
  unfold fire
  split <;> rfl

theorem endedNames_fireAny (s : ExecStage) (hook : Option HookId) : (s.fireAny hook).endedNames = s.endedNames := by
  cases hook with
  | none => rfl
  | some hook => exact s.endedNames_fire hook

theorem endedNames_dropWork (s : ExecStage) (task : Task) : (s.dropWork task).endedNames = s.endedNames :=
  (endedNames_fireAny _ _).trans (endedNames_noteClosed _ _)

theorem endedNames_dropAll (s : ExecStage) (tasks : List Task) : (s.dropAll tasks).endedNames = s.endedNames :=
  List.foldlRecOn (motive := fun t : ExecStage => t.endedNames = s.endedNames) tasks _ rfl fun t ht task _ =>
    (t.endedNames_dropWork task).trans ht

theorem endedNames_closeStream (s : ExecStage) (id : StreamId) : (s.closeStream id).endedNames = s.endedNames :=
  endedNames_fireAny s _

theorem endedNames_closeStreams (s : ExecStage) (ids : List StreamId) : (s.closeStreams ids).endedNames = s.endedNames :=
  List.foldlRecOn (motive := fun t : ExecStage => t.endedNames = s.endedNames) ids _ rfl fun t ht id _ =>
    (t.endedNames_closeStream id).trans ht

theorem endedNames_publishAndClose (s : ExecStage) (f : Publisher Task → Publisher Task × List StreamId) :
    (s.publishAndClose f).endedNames = s.endedNames :=
  endedNames_closeStreams _ _

theorem endedNames_spawn (s : ExecStage) (task : Task) : (s.spawn task).endedNames = s.endedNames := by
  unfold spawn
  split
  · exact s.endedNames_dropWork task
  · rfl

theorem endedNames_closeInbox (s : ExecStage) : s.closeInbox.endedNames = s.endedNames := endedNames_dropAll _ _

theorem endedNames_dropTaken (s : ExecStage) : s.dropTaken.endedNames = s.endedNames := endedNames_dropAll _ _

theorem endedNames_cancel (s : ExecStage) : s.cancel.endedNames = s.endedNames := by
  unfold cancel
  split
  · rfl
  · exact (endedNames_closeInbox _).trans ((endedNames_closeStreams _ _).trans s.endedNames_dropTaken)

theorem endedNames_pollTimer (s : ExecStage) (t : Timer) : (s.pollTimer t).1.endedNames = s.endedNames := by
  unfold pollTimer
  split
  · split <;> rfl
  · rfl

/-! ### What notes ends -/

theorem endedNames_noteEnded (s : ExecStage) (names : List String) :
    (s.noteEnded names).endedNames = names.reverse ++ s.endedNames := by
  induction names generalizing s with
  | nil => rfl
  | cons name rest ih =>
    show ((s.note (.ended name)).noteEnded rest).endedNames = _
    rw [ih, List.reverse_cons, List.append_assoc]
    rfl

theorem endedNames_retire (s : ExecStage) (hook : HookId) :
    (s.retire hook).endedNames = s.hookName hook ++ s.endedNames := by
  unfold retire hookName
  split
  · rename_i name h
    rw [h]
    rfl
  · rename_i h
    cases hget : s.hooks[hook.index]? with
    | none => rfl
    | some name? =>
      cases name? with
      | none => rfl
      | some name => exact absurd hget (h name)

end Stage

variable {s s₁ : ExecStage} {polled : Polled Resolved} {source source' : ItemStream}

/-- To ask for an item notes no end by itself, and no hook changes. -/
theorem ItemStreamOf.notes_poll (source : ItemStream) (s : ExecStage) :
    (source.poll Resolved.isError s).1.endedNames = s.endedNames ∧
      (source.poll Resolved.isError s).1.hooks = s.hooks := by
  have hadvance : ∀ (steps : List (StreamStep Resolved)) (timer : Option Timer) (s : ExecStage),
      (source.advance Resolved.isError s timer steps).1.endedNames = s.endedNames ∧
        (source.advance Resolved.isError s timer steps).1.hooks = s.hooks := by
    intro steps
    induction steps with
    | nil =>
      intro timer s
      unfold advance
      split <;> exact ⟨rfl, rfl⟩
    | cons step rest ih =>
      intro timer s
      cases step with
      | item outcome => exact ⟨rfl, rfl⟩
      | wait ticks =>
        unfold advance
        have hnames := s.endedNames_pollTimer (timer.getD (.fresh ticks))
        have hhooks : (s.pollTimer (timer.getD (.fresh ticks))).1.hooks = s.hooks := by
          unfold Stage.pollTimer
          split
          · split <;> rfl
          · rfl
        split
        · rename_i s' heq
          rw [heq] at hnames hhooks
          exact ⟨(ih none s').1.trans hnames, (ih none s').2.trans hhooks⟩
        · rename_i s' timer' heq
          rw [heq] at hnames hhooks
          exact ⟨hnames, hhooks⟩
  unfold poll
  split
  · exact ⟨rfl, rfl⟩
  · exact hadvance source.steps source.timer s

theorem leads_pollStream_notes (source : ItemStream) : Leads (pollStream source) s fun polled s₁ =>
    s₁.endedNames = s.endedNames ∧ s₁.hooks = s.hooks ∧ source.Gives polled.1 polled.2 := by
  obtain ⟨hnames, hhooks⟩ := source.notes_poll s
  refine Leads.bind (Leads.get (Leads.bind (Leads.set (Leads.pure ⟨?_, ?_, (source.gives_poll s).1⟩))))
  · exact (endedNames_noteOpened _ _).trans hnames
  · exact List.foldlRecOn (motive := fun t : ExecStage => t.hooks = s.hooks) _ _ hhooks fun _ ht _ _ => ht

/-! ### The first items of a list -/

/-- What comes of the first items of a list once the stream was asked for one.  Its end is noted if it is over or gave an
error. -/
theorem leads_takeItems_poll {itemType : TypeRef} {site : Site} {usage : Option StreamUsage} {count : Nat}
    {items : List Job} (hwanted : usage.filter (·.initialCount ≤ items.length) = none) :
    (pollStream source).run s = some ((source', polled), s₁) →
    Leads (takeItems itemType site usage (count + 1) source items) s fun out s' =>
      match polled with
      | .item (.ok item) => (takeItems itemType site usage count source'
          (itemJob itemType site items.length item :: items)).run s₁ = some (out, s')
      | .item (.error e) => out = .error (e.toError.locate site.group site.path) ∧
          s'.endedNames = source.openName ++ s.endedNames
      | .ended => out = .ok (.gather .list false (items.reverse.map .running)) ∧
          s'.endedNames = source.openName ++ s.endedNames
      | .waiting => out = .ok (.iterate itemType site usage source' items) ∧ s'.endedNames = s.endedNames := by
  intro hpoll
  obtain ⟨hnames, -, -⟩ := leads_pollStream_notes source _ _ hpoll
  have hended : (s₁.noteEnded source.openName).endedNames = source.openName ++ s.endedNames := by
    rw [endedNames_noteEnded, hnames]
    -- a stream has one name at most
    have hreverse : source.openName.reverse = source.openName := by
      unfold ItemStreamOf.openName
      split
      · rfl
      · cases source.armed <;> rfl
    rw [hreverse]
  rw [takeItems]
  dsimp only
  rw [hwanted]
  refine Leads.bind fun given t hrun => ?_
  obtain ⟨rfl, rfl⟩ : (source', polled) = given ∧ s₁ = t := by simpa using hpoll.symm.trans hrun
  cases polled with
  | waiting => exact Leads.pure ⟨rfl, hnames⟩
  | ended => exact Leads.bind (Leads.modify (Leads.pure ⟨rfl, hended⟩))
  | item outcome =>
    cases outcome with
    | ok item => exact fun _ _ hrun => hrun
    | error e =>
      refine Leads.bind (Leads.modify (Leads.bind (Leads.modify (Leads.pure ⟨rfl, ?_⟩))))
      exact (endedNames_noteClosed _ _).trans hended

theorem leads_spawnFetcher_notes (itemType : TypeRef) (site : Site) (usage : StreamUsage) (source : ItemStream)
    (index : Nat) : Leads (spawnFetcher itemType site usage source index) s fun _ s' => s'.endedNames = s.endedNames := by
  refine Leads.bind (Leads.modifyGet (Leads.bind (Leads.bind (Leads.get (Leads.bind (Leads.set (Leads.pure ?_)))))))
  refine Leads.bind (Leads.bind (Leads.get (Leads.bind (Leads.set (Leads.pure ?_)))))
  exact Leads.modify (endedNames_spawn _ _)

/-- The end of a stream is noted if its first items end in an error or make up the whole list.  It is not noted if more
items are left to be fetched, or as long as the stream is asked again. -/
theorem leads_takeItems_ends (itemType : TypeRef) (site : Site) (usage : Option StreamUsage) (count : Nat)
    (source : ItemStream) (items : List Job) :
    Leads (takeItems itemType site usage count source items) s fun out s' =>
      match out with
      | .error _ => s'.endedNames = source.openName ++ s.endedNames
      | .ok (.gather _ _ children) => s'.endedNames =
          (if (usage.filter (·.initialCount ≤ children.length)).isSome then [] else source.openName) ++ s.endedNames
      | .ok _ => s'.endedNames = s.endedNames := by
  induction count generalizing s source items with
  | zero => exact Leads.pure rfl
  | succ count ih =>
    have hlength : (items.reverse.map (Slot.running (α := Job))).length = items.length := by simp
    cases hwanted : usage.filter (·.initialCount ≤ items.length) with
    | some u =>
      rw [takeItems]
      dsimp only
      rw [hwanted]
      refine Leads.andThen (leads_spawnFetcher_notes itemType site u source items.length) fun _ s₁ hnames => Leads.pure ?_
      dsimp only
      rw [hlength, hwanted]
      exact hnames
    | none =>
      intro out s' hrun
      obtain ⟨⟨source', polled⟩, s₁, hpoll⟩ : ∃ given s₁, (pollStream source).run s = some (given, s₁) := ⟨_, _, rfl⟩
      obtain ⟨hnames, -, hgives⟩ := leads_pollStream_notes source _ _ hpoll
      have hround := leads_takeItems_poll hwanted hpoll _ _ hrun
      cases polled with
      | waiting =>
        obtain ⟨rfl, hnames⟩ := hround
        exact hnames
      | ended =>
        obtain ⟨rfl, hnames⟩ := hround
        dsimp only
        rw [hlength, hwanted]
        exact hnames
      | item outcome =>
        cases outcome with
        | error e =>
          obtain ⟨rfl, hnames⟩ := hround
          exact hnames
        | ok item =>
          -- the stream is as open as before
          have hrest := ih source' (itemJob itemType site items.length item :: items) _ _ hround
          rw [hnames, show source'.openName = source.openName from hgives.2] at hrest
          exact hrest

/-! ### Items that are fetched -/

/-- An item that is spawned fires no hook. -/
theorem hooks_spawnItem (s : ExecStage) (path : Path) (id : RecordId) (value : Job) :
    (s.spawn (.item path id value)).hooks = s.hooks := by
  unfold Stage.spawn
  split
  · exact List.foldlRecOn (motive := fun t : ExecStage => t.hooks = s.hooks) _ _ rfl fun _ ht _ _ => ht
  · rfl

/-- What comes of the items that a task fetches once it asked for one.  The end of the stream is noted if it is over or
gave an error while its hook was armed.  With another item the task goes on, unless the stream has failed before. -/
theorem leads_fetchItems_poll {count : Nat} {f : Fetcher} : (pollStream f.source).run s = some ((source', polled), s₁) →
    Leads (fetchItems (count + 1) f) s fun task? s' =>
      match polled with
      | .item (.ok _) =>
        (∃ f' s₂, f'.source = source' ∧ f'.hook = f.hook ∧ f'.stream = f.stream ∧ s₂.endedNames = s.endedNames ∧
          s₂.hooks = s.hooks ∧ (fetchItems count f').run s₂ = some (task?, s')) ∨
        task? = none ∧ s'.endedNames = s.endedNames ∧ s'.publisher.streamHasErrors f.stream = true
      | .ended | .item (.error _) => task? = none ∧ s'.endedNames = s.hookName f.hook ++ s.endedNames
      | .waiting => task? = some (.fetch { f with source := source' }) ∧ s'.endedNames = s.endedNames := by
  intro hpoll
  obtain ⟨hnames, hhooks, hgives⟩ := leads_pollStream_notes f.source _ _ hpoll
  have hcut : ∀ t : ExecStage, t.publisher.streamHasErrors f.stream = true → Leads (do
      Execution.noteClosed polled.openStreams
      publishUnit fun p => p.retireItems f.record
      modify fun s => s.fire f.hook
      return (none : Option Task)) t fun task? s' =>
        task? = none ∧ s'.endedNames = t.endedNames ∧ s'.publisher.streamHasErrors f.stream = true := by
    intro t herrors
    refine Leads.bind (Leads.modify (Leads.bind (Leads.bind (Leads.get (Leads.bind (Leads.set (Leads.pure ?_)))))))
    refine Leads.bind (Leads.modify (Leads.pure ⟨rfl, ?_, ?_⟩))
    · exact (endedNames_fire _ _).trans (endedNames_noteClosed t _)
    · rw [(disarms_fire _ f.hook).publisher]
      show (Publisher.retireItems _ _).streamHasErrors _ = true
      rw [(noteClosed_beside t _).publisher]
      unfold Publisher.retireItems Publisher.release
      split <;> exact herrors
  have hretired : (s₁.retire f.hook).endedNames = s.hookName f.hook ++ s.endedNames := by
    rw [endedNames_retire, hnames]
    unfold Stage.hookName
    rw [hhooks]
  rw [fetchItems]
  refine Leads.bind fun given t hrun => ?_
  obtain ⟨rfl, rfl⟩ : (source', polled) = given ∧ s₁ = t := by simpa using hpoll.symm.trans hrun
  cases polled with
  | waiting => exact Leads.pure ⟨rfl, hnames⟩
  | ended =>
    dsimp only
    rw [if_pos (show source'.finished = true from hgives)]
    refine Leads.bind (Leads.modify (Leads.bind (Leads.get ?_)))
    split
    · rename_i herrors
      exact (hcut _ herrors).imp fun _ _ h => ⟨h.1, h.2.1.trans hretired⟩
    · exact Leads.bind (Leads.bind (Leads.get (Leads.bind (Leads.set (Leads.pure (Leads.pure ⟨rfl, hretired⟩))))))
  | item outcome =>
    cases outcome with
    | error e =>
      dsimp only
      rw [if_pos (show source'.finished = true from hgives)]
      refine Leads.bind (Leads.modify (Leads.bind (Leads.get ?_)))
      split
      · rename_i herrors
        exact (hcut _ herrors).imp fun _ _ h => ⟨h.1, h.2.1.trans hretired⟩
      · refine Leads.bind (Leads.modify (Leads.bind (Leads.modify (Leads.pure ⟨rfl, ?_⟩))))
        exact (endedNames_publishAndClose _ _).trans ((endedNames_publishAndClose _ _).trans hretired)
    | ok item =>
      obtain ⟨hopen, -⟩ : source'.finished = false ∧ _ := hgives
      dsimp only
      rw [if_neg (by simp [hopen])]
      refine Leads.bind (Leads.get ?_)
      split
      · rename_i herrors
        exact (hcut _ herrors).imp fun _ _ h => .inr ⟨h.1, h.2.1.trans hnames, h.2.2⟩
      · refine Leads.bind (Leads.modify (Leads.bind (Leads.bind (Leads.get (Leads.bind (Leads.set (Leads.pure ?_)))))))
        intro task? s' hrun
        refine .inl ⟨_, _, ?_, ?_, ?_, ?_, ?_, hrun⟩
        · rfl
        · rfl
        · rfl
        · exact (endedNames_spawn s₁ _).trans hnames
        · exact (hooks_spawnItem s₁ _ _ _).trans hhooks

/-- The end of a stream whose items are fetched is noted when its task ends, unless the stream has failed before, and not
as long as the task waits. -/
theorem leads_fetchItems_ends (count : Nat) (f : Fetcher) : Leads (fetchItems count f) s fun task? s' =>
    match task? with
    | some task => s'.endedNames = s.endedNames ∧ ∃ f', task = .fetch f' ∧ f'.hook = f.hook
    | none => s'.endedNames = s.hookName f.hook ++ s.endedNames ∨
        s'.endedNames = s.endedNames ∧ s'.publisher.streamHasErrors f.stream = true := by
  induction count generalizing s f with
  | zero => exact Leads.pure ⟨rfl, f, rfl, rfl⟩
  | succ count ih =>
    intro task? s' hrun
    obtain ⟨⟨source', polled⟩, s₁, hpoll⟩ : ∃ given s₁, (pollStream f.source).run s = some (given, s₁) := ⟨_, _, rfl⟩
    have hround := leads_fetchItems_poll hpoll _ _ hrun
    cases polled with
    | waiting =>
      obtain ⟨rfl, hnames⟩ := hround
      exact ⟨hnames, _, rfl, rfl⟩
    | ended =>
      obtain ⟨rfl, hnames⟩ := hround
      exact .inl hnames
    | item outcome =>
      cases outcome with
      | error e =>
        obtain ⟨rfl, hnames⟩ := hround
        exact .inl hnames
      | ok item =>
        rcases hround with ⟨f', s₂, -, hhook, hstream, hnames, hhooks, hrest⟩ | ⟨rfl, hnames, herrors⟩
        · have hrest := ih f' _ _ hrest
          have hname : s₂.hookName f'.hook = s.hookName f.hook := by
            unfold Stage.hookName
            rw [hhook, hhooks]
          rw [hnames, hname, hhook, hstream] at hrest
          exact hrest
        · exact .inr ⟨hnames, herrors⟩

end GraphQL
