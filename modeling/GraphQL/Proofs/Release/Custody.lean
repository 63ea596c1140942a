import GraphQL.Proofs.Execution.SessionMoves
import Mathlib.Data.List.Count

/-!
# Who holds the streams

Every stream of items that was obtained is held by someone: by a job or a task, by the hook of the stream whose items a task
fetches, or by what runs at the moment.  It is let go of once, when its end is noted or when its closing is.  So for each
name what was obtained is what was closed, what came to an end, and what is still held (`Stage.Custody`).  A hook that is
armed has a task that fetches the items of its stream, which is dropped only together with the hook.
-/

namespace GraphQL

open Execution Stage

/-- The stream whose items a task fetches, and its hook. -/
def Task.fetching? : Task → Option (StreamId × HookId)
  | fetch f => some (f.stream, f.hook)
  | _ => none

namespace Stage

/-- The names of the streams whose hooks are armed. -/
def armedNames (s : ExecStage) : List String := s.hooks.toList.filterMap id

/-- The names of the streams that are held by hooks and tasks. -/
def held (s : ExecStage) : List String := s.armedNames ++ s.tasks.flatMap Task.openStreams

/-- The streams whose items are fetched by tasks, with their hooks. -/
def fetching (s : ExecStage) : List (StreamId × HookId) := s.tasks.filterMap Task.fetching?

/-- For each name, the streams that were obtained were closed, came to an end, or are still held, be it by hooks, tasks or
what runs, which holds those of `names`.  The tasks and what runs, which fetches the streams in `running`, know the hooks of
the streams that they fetch, and each armed hook belongs to one of them. -/
structure Custody (names : List String) (running : List (StreamId × HookId)) (s : ExecStage) : Prop where
  balanced : ∀ name, s.log.count (.opened name) =
    s.log.count (.closed name) + s.log.count (.ended name) + s.held.count name + names.count name
  linked : ∀ e ∈ running ++ s.fetching, (s.publisher.stream? e.1).bind StreamRecord.hook = some e.2
  armed : ∀ (hook : HookId) (name : String), s.hooks[hook.index]? = some (some name) → ∃ e ∈ running ++ s.fetching, e.2 = hook

variable {s s' : ExecStage} {names names' : List String} {running : List (StreamId × HookId)}

namespace Custody

/-- The order of what is held does not matter. -/
theorem perm (h : s.Custody names running) (hperm : names.Perm names') : s.Custody names' running :=
  ⟨fun name => by rw [← hperm.count_eq]; exact h.balanced name, h.linked, h.armed⟩

/-- Nothing changes when the log, the hooks and the streams stay as they are, and the tasks are only put into another
order. -/
theorem reorder (h : s.Custody names running) (hlog : s'.log = s.log) (hhooks : s'.hooks = s.hooks)
    (hstreams : s'.publisher.streams = s.publisher.streams) (htasks : s'.tasks.Perm s.tasks) : s'.Custody names running := by
  have hfetching : s'.fetching.Perm s.fetching := htasks.filterMap _
  have hrunning : ∀ e, e ∈ running ++ s'.fetching ↔ e ∈ running ++ s.fetching := fun e =>
    (hfetching.append_left running).mem_iff
  refine ⟨fun name => ?_, fun e he => ?_, fun hook name harmed => ?_⟩
  · have hheld : s'.held.Perm s.held := by
      unfold held armedNames
      rw [hhooks]
      exact (htasks.flatMap_right _).append_left _
    rw [hlog, hheld.count_eq]
    exact h.balanced name
  · unfold Publisher.stream?
    rw [hstreams]
    exact h.linked e ((hrunning e).1 he)
  · rw [hhooks] at harmed
    obtain ⟨e, he, heq⟩ := h.armed hook name harmed
    exact ⟨e, (hrunning e).2 he, heq⟩

/-- Changes of the log that account for what is held no longer, or is newly held. -/
theorem note (h : s.Custody names running) {log : List Notice}
    (hlog : ∀ name, log.count (.opened name) + names.count name + s.log.count (.closed name) + s.log.count (.ended name) =
      s.log.count (.opened name) + log.count (.closed name) + log.count (.ended name) + names'.count name) :
    Custody names' running { s with log := log } := by
  refine ⟨fun name => ?_, h.linked, h.armed⟩
  have hbalanced := h.balanced name
  have hname := hlog name
  show log.count _ = log.count _ + log.count _ + s.held.count name + _
  omega

end Custody

/-! ### Notices -/

/-- Notes that are all of one kind. -/
private theorem log_notes (f : String → Notice) (names : List String) (s : ExecStage) :
    names.foldl (fun s name => s.note (f name)) s = { s with log := (names.map f).reverse ++ s.log } := by
  induction names generalizing s with
  | nil => rfl
  | cons name rest ih =>
    rw [List.foldl_cons, ih]
    simp [note]

private theorem count_map_ne (f g : String → Notice) (hne : ∀ a b, f a ≠ g b) (names : List String) (name : String) :
    (names.map f).count (g name) = 0 := by
  rw [List.count_eq_zero]
  intro hmem
  obtain ⟨other, -, heq⟩ := List.mem_map.1 hmem
  exact hne _ _ heq

namespace Custody

/-- The call of a resolver changes nothing. -/
theorem called (h : s.Custody names running) (typeName fieldName : String) (path : Path) :
    (s.note (.called typeName fieldName path)).Custody names running := by
  refine h.note fun name => ?_
  simp only [List.count_cons, beq_iff_eq, reduceCtorEq, if_false]
  omega

/-- What is closed is held no longer. -/
theorem noteClosed (h : s.Custody (names ++ names') running) : (s.noteClosed names).Custody names' running := by
  unfold Stage.noteClosed
  rw [log_notes]
  refine h.note fun name => ?_
  simp only [List.count_append, List.count_reverse, List.count_map_of_injective _ Notice.closed fun _ _ => Notice.closed.inj,
    count_map_ne .closed .opened (fun _ _ h => Notice.noConfusion h), count_map_ne .closed .ended (fun _ _ h => Notice.noConfusion h)]
  omega

/-- What comes to an end is held no longer. -/
theorem noteEnded (h : s.Custody (names ++ names') running) : (s.noteEnded names).Custody names' running := by
  unfold Stage.noteEnded
  rw [log_notes]
  refine h.note fun name => ?_
  simp only [List.count_append, List.count_reverse, List.count_map_of_injective _ Notice.ended fun _ _ => Notice.ended.inj,
    count_map_ne .ended .opened (fun _ _ h => Notice.noConfusion h), count_map_ne .ended .closed (fun _ _ h => Notice.noConfusion h)]
  omega

/-- What is obtained is held from then on. -/
theorem noteOpened (h : s.Custody names' running) (names : List String) :
    (s.noteOpened names).Custody (names ++ names') running := by
  unfold Stage.noteOpened
  rw [log_notes]
  refine h.note fun name => ?_
  simp only [List.count_append, List.count_reverse, List.count_map_of_injective _ Notice.opened fun _ _ => Notice.opened.inj,
    count_map_ne .opened .closed (fun _ _ h => Notice.noConfusion h), count_map_ne .opened .ended (fun _ _ h => Notice.noConfusion h)]
  omega

end Custody

/-! ### Hooks -/

/-- A hook that is disarmed holds its stream no longer. -/
private theorem count_disarmed (hooks : Array (Option String)) {i : Nat} {armed : String}
    (h : hooks[i]? = some (some armed)) (name : String) :
    (hooks.toList.filterMap id).count name =
      ((hooks.modify i fun _ => none).toList.filterMap id).count name + [armed].count name := by
  rw [Array.toList_modify]
  rw [← Array.getElem?_toList] at h
  generalize hooks.toList = hooks at h
  induction hooks generalizing i with
  | nil => exact absurd h (by simp)
  | cons hook rest ih =>
    cases i with
    | zero =>
      obtain rfl : hook = some armed := by simpa using h
      simp [List.count_cons]
    | succ i =>
      have hrest := ih (i := i) (by simpa using h)
      cases hook with
      | none => simpa using hrest
      | some other =>
        simp only [List.modify_succ_cons, List.filterMap_cons_some (f := id) (a := some other) rfl]
        rw [List.count_cons, List.count_cons, hrest]
        omega

private theorem getElem?_disarmed (hooks : Array (Option String)) {i j : Nat} {name : String}
    (h : (hooks.modify i fun _ => none)[j]? = some (some name)) : hooks[j]? = some (some name) ∧ j ≠ i := by
  rw [Array.getElem?_modify] at h
  split at h
  · cases hj : hooks[j]? <;> rw [hj] at h <;> exact absurd h (by simp)
  · rename_i hne
    exact ⟨h, fun heq => hne heq.symm⟩

/-- How a hook is disarmed: if it is armed, its name goes from the hooks into the log. -/
structure Disarms (hook : HookId) (s s' : ExecStage) : Prop where
  publisher : s'.publisher = s.publisher
  work : s'.work = s.work
  balanced : ∀ name, s'.log.count (.opened name) = s.log.count (.opened name) ∧
    s'.log.count (.closed name) + s'.log.count (.ended name) + s'.armedNames.count name =
      s.log.count (.closed name) + s.log.count (.ended name) + s.armedNames.count name
  armed : ∀ (other : HookId) (name : String), s'.hooks[other.index]? = some (some name) →
    s.hooks[other.index]? = some (some name) ∧ other ≠ hook

private theorem disarms_of_note (hook : HookId) {f : String → Notice} (hf : f = .closed ∨ f = .ended)
    {name : String} (h : s.hooks[hook.index]? = some (some name)) : Disarms hook s ((s.note (f name)).disarm hook) := by
  refine ⟨rfl, rfl, fun other => ?_, fun other name hother => ?_⟩
  · have hcount := count_disarmed s.hooks h other
    unfold armedNames
    rw [hcount]
    show (f name :: s.log).count _ = _ ∧ (f name :: s.log).count _ + (f name :: s.log).count _ +
      ((s.hooks.modify hook.index fun _ => none).toList.filterMap id).count other = _
    rcases hf with rfl | rfl <;> refine ⟨by simp, ?_⟩ <;> by_cases heq : name = other <;>
      simp [heq] <;> omega
  · obtain ⟨hsame, hne⟩ := getElem?_disarmed s.hooks hother
    exact ⟨hsame, fun heq => hne (congrArg HookId.index heq)⟩

private theorem disarms_of_unarmed {hook : HookId} (h : ∀ name, s.hooks[hook.index]? ≠ some (some name)) :
    Disarms hook s s :=
  ⟨rfl, rfl, fun _ => ⟨rfl, rfl⟩, fun _ name hother => ⟨hother, fun heq => h name (heq ▸ hother)⟩⟩

theorem disarms_fire (s : ExecStage) (hook : HookId) : Disarms hook s (s.fire hook) := by
  unfold fire
  split
  · rename_i name h
    exact disarms_of_note hook (.inl rfl) h
  · rename_i h
    exact disarms_of_unarmed fun name => h name

theorem disarms_retire (s : ExecStage) (hook : HookId) : Disarms hook s (s.retire hook) := by
  unfold retire
  split
  · rename_i name h
    exact disarms_of_note hook (.inr rfl) h
  · rename_i h
    exact disarms_of_unarmed fun name => h name

namespace Disarms

variable {hook : HookId}

theorem tasks (h : Disarms hook s s') : s'.tasks = s.tasks := by
  unfold Stage.tasks
  rw [h.publisher, h.work]

theorem fetching (h : Disarms hook s s') : s'.fetching = s.fetching := by
  unfold Stage.fetching
  rw [h.tasks]

/-- A hook may be disarmed at any time. -/
theorem custody (h : Disarms hook s s') (hc : s.Custody names running) : s'.Custody names running := by
  refine ⟨fun name => ?_, fun e he => ?_, fun other name hother => ?_⟩
  · obtain ⟨hopened, hbalanced⟩ := h.balanced name
    have hname := hc.balanced name
    unfold held at hname ⊢
    rw [List.count_append] at hname ⊢
    rw [h.tasks, hopened]
    omega
  · rw [h.fetching] at he
    rw [h.publisher]
    exact hc.linked e he
  · rw [h.fetching]
    exact hc.armed other name (h.armed other name hother).1

/-- After that what runs need not know the hook any longer. -/
theorem custody_cons (h : Disarms hook s s') {stream : StreamId} (hc : s.Custody names ((stream, hook) :: running)) :
    s'.Custody names running := by
  obtain ⟨hbalanced, hlinked, harmed⟩ := h.custody hc
  refine ⟨hbalanced, fun e he => hlinked e (List.mem_cons_of_mem _ he), fun other name hother => ?_⟩
  obtain ⟨e, he, heq⟩ := harmed other name hother
  rcases List.mem_cons.1 he with rfl | he
  · exact absurd heq.symm (h.armed other name hother).2
  · exact ⟨e, he, heq⟩

end Disarms

/-! ### Tasks -/

/-- A task that is dropped lets go of all that it holds. -/
theorem Custody.dropWork {task : Task} (h : s.Custody (task.openStreams ++ names) (task.fetching?.toList ++ running)) :
    (s.dropWork task).Custody names running := by
  have hclosed := h.noteClosed
  cases task with
  | fetch f => exact (disarms_fire _ f.hook).custody_cons hclosed
  | _ => exact hclosed

/-- Tasks that are dropped let go of all that they hold. -/
theorem Custody.dropAll {tasks : List Task}
    (h : s.Custody (tasks.flatMap Task.openStreams ++ names) (tasks.filterMap Task.fetching? ++ running)) :
    (s.dropAll tasks).Custody names running := by
  induction tasks generalizing s with
  | nil => exact h
  | cons task rest ih =>
    refine ih (s := s.dropWork task) (Custody.dropWork ?_)
    rw [List.flatMap_cons, List.append_assoc] at h
    cases task <;> exact h

/-- Tasks can be taken by what runs. -/
theorem Custody.take {tasks : List Task} (h : s.Custody names running) (hlog : s'.log = s.log) (hhooks : s'.hooks = s.hooks)
    (hstreams : s'.publisher.streams = s.publisher.streams) (htasks : s.tasks.Perm (tasks ++ s'.tasks)) :
    s'.Custody (tasks.flatMap Task.openStreams ++ names) (tasks.filterMap Task.fetching? ++ running) := by
  have hfetching : s.fetching.Perm (tasks.filterMap Task.fetching? ++ s'.fetching) := by
    have := htasks.filterMap Task.fetching?
    rwa [List.filterMap_append] at this
  have hrunning : ∀ e, e ∈ running ++ s.fetching ↔ e ∈ tasks.filterMap Task.fetching? ++ running ++ s'.fetching := by
    intro e
    simp only [List.mem_append, hfetching.mem_iff]
    tauto
  refine ⟨fun name => ?_, fun e he => ?_, fun hook name harmed => ?_⟩
  · have hheld := (htasks.flatMap_right Task.openStreams).count_eq name
    have hname := h.balanced name
    unfold held armedNames at hname ⊢
    rw [List.flatMap_append] at hheld
    rw [hlog, hhooks]
    simp only [List.count_append] at hname hheld ⊢
    omega
  · unfold Publisher.stream?
    rw [hstreams]
    exact h.linked e ((hrunning e).2 he)
  · rw [hhooks] at harmed
    obtain ⟨e, he, heq⟩ := h.armed hook name harmed
    exact ⟨e, (hrunning e).1 he, heq⟩

/-- What runs can give up a task with all that it holds. -/
theorem Custody.give (task : Task) (h : s.Custody (task.openStreams ++ names) (task.fetching?.toList ++ running))
    (hlog : s'.log = s.log) (hhooks : s'.hooks = s.hooks) (hstreams : s'.publisher.streams = s.publisher.streams)
    (htasks : s'.tasks.Perm (task :: s.tasks)) : s'.Custody names running := by
  have hfetching : s'.fetching.Perm (task.fetching?.toList ++ s.fetching) := by
    refine (htasks.filterMap Task.fetching?).trans (List.Perm.of_eq ?_)
    cases task <;> rfl
  have hrunning : ∀ e, e ∈ running ++ s'.fetching ↔ e ∈ task.fetching?.toList ++ running ++ s.fetching := by
    intro e
    simp only [List.mem_append, hfetching.mem_iff]
    tauto
  refine ⟨fun name => ?_, fun e he => ?_, fun hook name harmed => ?_⟩
  · have hheld := (htasks.flatMap_right Task.openStreams).count_eq name
    have hname := h.balanced name
    unfold held armedNames at hname ⊢
    rw [List.flatMap_cons] at hheld
    rw [hlog, hhooks]
    simp only [List.count_append] at hname hheld ⊢
    omega
  · unfold Publisher.stream?
    rw [hstreams]
    exact h.linked e ((hrunning e).1 he)
  · rw [hhooks] at harmed
    obtain ⟨e, he, heq⟩ := h.armed hook name harmed
    exact ⟨e, (hrunning e).2 he, heq⟩

/-- A task that is spawned holds what it was given. -/
theorem Custody.spawn {task : Task} (h : s.Custody (task.openStreams ++ names) (task.fetching?.toList ++ running)) :
    (s.spawn task).Custody names running := by
  unfold Stage.spawn
  split
  · exact h.dropWork
  · refine h.give task rfl rfl rfl ?_
    show (s.work.ready ++ s.work.waiting ++ (s.publisher.inbox ++ [task])).Perm (task :: s.tasks)
    rw [← List.append_assoc]
    exact List.perm_append_comm

/-! ### Streams -/

/-- Work that was taken from the inbox keeps all streams that it holds when a stream is closed. -/
private theorem flatMap_openStreams_filter (tasks : List Task) (id : StreamId) :
    (tasks.filter fun t => t.drives ≠ some id).flatMap Task.openStreams = tasks.flatMap Task.openStreams := by
  induction tasks with
  | nil => rfl
  | cons task rest ih =>
    rw [List.filter_cons]
    split
    · rw [List.flatMap_cons, List.flatMap_cons, ih]
    · rename_i hdrives
      rw [List.flatMap_cons, ih]
      cases task with
      | fetch f => rfl
      | _ => exact absurd rfl hdrives

theorem disarms_fireAny (s : ExecStage) (hook : Option HookId) :
    (∃ h, hook = some h ∧ Disarms h s (s.fireAny hook)) ∨ hook = none ∧ s.fireAny hook = s := by
  cases hook with
  | none => exact .inr ⟨rfl, rfl⟩
  | some h => exact .inl ⟨h, rfl, disarms_fire s h⟩

/-- Tasks whose hooks are not armed any more can be dropped when they hold nothing else. -/
theorem Custody.filter (keep : Task → Bool) (h : s.Custody names running) (hlog : s'.log = s.log)
    (hhooks : s'.hooks = s.hooks) (hstreams : s'.publisher.streams = s.publisher.streams)
    (htasks : s'.tasks = s.tasks.filter keep) (hholds : (s.tasks.filter keep).flatMap Task.openStreams =
      s.tasks.flatMap Task.openStreams)
    (hunarmed : ∀ task ∈ s.tasks, keep task = false → ∀ e, task.fetching? = some e →
      ∀ name, s.hooks[e.2.index]? ≠ some (some name)) : s'.Custody names running := by
  have hfetching : s'.fetching ⊆ s.fetching := by
    unfold fetching
    rw [htasks]
    exact (List.filter_sublist.filterMap _).subset
  refine ⟨fun name => ?_, fun e he => ?_, fun hook name harmed => ?_⟩
  · have hname := h.balanced name
    unfold held armedNames at hname ⊢
    rw [hlog, hhooks, htasks, hholds]
    exact hname
  · unfold Publisher.stream?
    rw [hstreams]
    exact h.linked e ((List.mem_append.1 he).elim (List.mem_append_left _) fun he => List.mem_append_right _ (hfetching he))
  · rw [hhooks] at harmed
    obtain ⟨e, he, rfl⟩ := h.armed hook name harmed
    refine ⟨e, ?_, rfl⟩
    rcases List.mem_append.1 he with he | he
    · exact List.mem_append_left _ he
    · obtain ⟨task, htask, hfetches⟩ := List.mem_filterMap.1 he
      refine List.mem_append_right _ (List.mem_filterMap.2 ⟨task, ?_, hfetches⟩)
      rw [htasks]
      refine List.mem_filter.2 ⟨htask, ?_⟩
      cases hkeep : keep task with
      | true => rfl
      | false => exact absurd harmed (hunarmed task htask hkeep e hfetches name)

/-- The tasks that fetch the items of a stream are dropped together with its hook. -/
theorem Custody.closeStream (h : s.Custody names running) (id : StreamId) : (s.closeStream id).Custody names running := by
  obtain ⟨htasks, -, -⟩ := closeStream_eq s id
  obtain ⟨hwork, hpublisher⟩ := tasks_fireAny s ((s.publisher.stream? id).bind StreamRecord.hook)
  have hfired : (s.fireAny ((s.publisher.stream? id).bind StreamRecord.hook)).Custody names running ∧
      ∀ hook, (s.publisher.stream? id).bind StreamRecord.hook = some hook → ∀ name,
        (s.fireAny ((s.publisher.stream? id).bind StreamRecord.hook)).hooks[hook.index]? ≠ some (some name) := by
    rcases disarms_fireAny s ((s.publisher.stream? id).bind StreamRecord.hook) with ⟨hook, heq, hdisarms⟩ | ⟨heq, hsame⟩
    · refine ⟨hdisarms.custody h, fun hook' heq' name harmed => ?_⟩
      obtain rfl := Option.some.inj (heq.symm.trans heq')
      exact (hdisarms.armed hook name harmed).2 rfl
    · rw [hsame]
      exact ⟨h, fun hook heq' => absurd (heq.symm.trans heq') (by simp)⟩
  have hsame : (s.fireAny ((s.publisher.stream? id).bind StreamRecord.hook)).tasks = s.tasks := by
    unfold tasks
    rw [hwork, hpublisher]
  refine hfired.1.filter (fun t => t.drives ≠ some id) rfl rfl rfl (by rw [htasks, hsame]) ?_ ?_
  · exact flatMap_openStreams_filter _ id
  · intro task htask hdrives e hfetches
    rw [hsame] at htask
    cases task with
    | fetch f =>
      obtain rfl : (f.stream, f.hook) = e := Option.some.inj hfetches
      have hid : f.stream = id := by simpa [Task.drives] using hdrives
      have hlinked := h.linked _ (List.mem_append_right _ (List.mem_filterMap.2 ⟨_, htask, rfl⟩))
      exact hfired.2 f.hook (hid ▸ hlinked)
    | _ => exact absurd hfetches (by simp [Task.fetching?])

theorem Custody.closeStreams (h : s.Custody names running) (ids : List StreamId) :
    (s.closeStreams ids).Custody names running :=
  List.foldlRecOn (motive := fun t : ExecStage => t.Custody names running) ids _ h fun _ ht id _ => ht.closeStream id

end Stage

/-! ### The publisher -/

/-- The streams keep their hooks, and no work comes or goes. -/
structure Publisher.KeepsHooks (p q : Publisher Task) : Prop where
  inbox : q.inbox = p.inbox
  hooks : ∀ id hook, (p.stream? id).bind StreamRecord.hook = some hook → (q.stream? id).bind StreamRecord.hook = some hook

namespace Publisher

variable {p q r : Publisher Task}

namespace KeepsHooks

theorem refl (p : Publisher Task) : p.KeepsHooks p := ⟨rfl, fun _ _ h => h⟩

theorem trans (h : p.KeepsHooks q) (h' : q.KeepsHooks r) : p.KeepsHooks r :=
  ⟨h'.inbox.trans h.inbox, fun id hook hid => h'.hooks id hook (h.hooks id hook hid)⟩

theorem of_streams (hinbox : q.inbox = p.inbox) (hstreams : q.streams = p.streams) : p.KeepsHooks q := by
  refine ⟨hinbox, fun id hook h => ?_⟩
  unfold stream?
  rw [hstreams]
  exact h

theorem foldl {β : Type} {step : Publisher Task → β → Publisher Task} (h : ∀ p b, KeepsHooks p (step p b))
    (bs : List β) (p : Publisher Task) : p.KeepsHooks (bs.foldl step p) :=
  List.foldlRecOn (motive := p.KeepsHooks) bs step (refl p) fun q hq b _ => hq.trans (h q b)

theorem modifyRecord (p : Publisher Task) (id : RecordId) (f : Record → Record) : p.KeepsHooks (p.modifyRecord id f) :=
  of_streams rfl rfl

theorem modifyFragment (p : Publisher Task) (id : RecordId) (f : FragmentRecord → FragmentRecord) :
    p.KeepsHooks (p.modifyFragment id f) :=
  modifyRecord p id _

theorem release (p : Publisher Task) (id : RecordId) : p.KeepsHooks (p.release id) := by
  unfold Publisher.release
  split <;> exact of_streams rfl rfl

theorem addChild (p : Publisher Task) (parent child : RecordId) : p.KeepsHooks (p.addChild parent child) :=
  foldl (fun p parent => modifyRecord p parent _) _ p

theorem addFragment (p : Publisher Task) (path : Path) (label : Option String) (parent : RecordId) :
    p.KeepsHooks (p.addFragment path label parent).1 :=
  (of_streams rfl rfl : p.KeepsHooks (p.push _).1).trans (addChild _ _ _)

theorem addFieldSet (p : Publisher Task) (path : Path) (fragments : List RecordId) :
    p.KeepsHooks (p.addFieldSet path fragments).1 :=
  (of_streams rfl rfl : p.KeepsHooks (p.push _).1).trans (foldl (fun p fragment => modifyFragment p fragment _) _ _)

theorem addItems (p : Publisher Task) (stream : StreamId) (path : Path) (parent : RecordId) :
    p.KeepsHooks (p.addItems stream path parent).1 :=
  (of_streams rfl rfl : p.KeepsHooks (p.push _).1).trans (addChild _ _ _)

theorem addStream (p : Publisher Task) (path : Path) (label : Option String) (hook : Option HookId) :
    p.KeepsHooks (p.addStream path label hook).1 := by
  refine ⟨rfl, fun id other h => ?_⟩
  obtain ⟨stream, hstream, hhook⟩ := Option.bind_eq_some_iff.1 h
  unfold stream? at hstream ⊢
  have hlt : id.index < p.streams.size := (Array.getElem?_eq_some_iff.1 hstream).1
  show ((p.streams.push _)[id.index]?).bind _ = _
  rw [Array.getElem?_push_lt hlt, ← Array.getElem?_eq_getElem hlt, hstream]
  exact hhook

theorem completeFieldSet (p : Publisher Task) (id : RecordId) (data : Json) : p.KeepsHooks (p.completeFieldSet id data) := by
  refine (modifyRecord p id _).trans (foldl (fun q fragment => ?_) _ _)
  dsimp only
  split
  · split
    · exact (modifyFragment q _ _).trans (release _ _)
    · exact modifyFragment q _ _
  · exact modifyFragment q _ _

theorem failFieldSet (p : Publisher Task) (id : RecordId) (e : Error) : p.KeepsHooks (p.failFieldSet id e) :=
  foldl (fun q _ => ((modifyFragment q _ _).trans (modifyFragment _ _ _)).trans (release _ _)) _ p

theorem completeItems (p : Publisher Task) (id : RecordId) (items : List Json) : p.KeepsHooks (p.completeItems id items) :=
  (modifyRecord p id _).trans (release _ _)

theorem failItems (p : Publisher Task) (id : RecordId) (e : Error) : p.KeepsHooks (p.failItems id e).1 := by
  unfold Publisher.failItems
  split
  · rename_i r _
    dsimp only
    refine KeepsHooks.trans ?_ (release _ id)
    refine ⟨rfl, fun other hook h => ?_⟩
    obtain ⟨stream, hstream, hhook⟩ := Option.bind_eq_some_iff.1 h
    unfold stream? at hstream ⊢
    dsimp only
    rw [show (p.modifyItems id _).streams = p.streams from rfl, Array.getElem?_modify, hstream]
    split <;> exact hhook
  · exact refl p

theorem retireItems (p : Publisher Task) (id : RecordId) : p.KeepsHooks (p.retireItems id) :=
  (modifyRecord p id _).trans (release _ _)

theorem filter (p : Publisher Task) (path : Path) (id : RecordId) : p.KeepsHooks (p.filter path id).1 :=
  foldl (fun p id => modifyRecord p id _) _ p

theorem publish (p : Publisher Task) (id : RecordId) : p.KeepsHooks (p.publish id) := by
  unfold Publisher.publish
  dsimp only
  split <;> exact of_streams rfl rfl

theorem publishChildren (p : Publisher Task) (id : RecordId) : p.KeepsHooks (p.publishChildren id) :=
  foldl publish _ p

theorem sendFieldSet (label : Option String) (state : Publisher Task × List IncrementalEntry) (id : RecordId) :
    state.1.KeepsHooks (Publisher.sendFieldSet label state id).1 := by
  obtain ⟨p, entries⟩ := state
  unfold Publisher.sendFieldSet
  dsimp only
  split
  · split
    · exact refl p
    · exact modifyRecord p id _
  · exact refl p

theorem deliver (p : Publisher Task) (id : RecordId) : p.KeepsHooks (p.deliver id).1 := by
  unfold Publisher.deliver
  split
  · dsimp only
    split
    · exact refl p
    · exact modifyRecord p id _
  · dsimp only
    split
    · exact refl p
    · exact List.foldlRecOn (motive := fun state : Publisher Task × List IncrementalEntry => p.KeepsHooks state.1) _ _
        (refl p) fun state hstate set _ => hstate.trans (sendFieldSet _ state set)
  · exact refl p

theorem nextResult? (p : Publisher Task) : p.KeepsHooks p.nextResult?.1 := by
  have hdelivered : ∀ (released : List RecordId) (p : Publisher Task),
      p.KeepsHooks (released.foldl deliverNext (p, [], [])).1 := fun released p =>
    List.foldlRecOn (motive := fun state : Publisher Task × List IncrementalEntry × List CompletedEntry =>
      p.KeepsHooks state.1) released deliverNext (refl p) fun state hstate id _ =>
        hstate.trans ((publishChildren state.1 id).trans (deliver _ id))
  unfold Publisher.nextResult?
  split
  · exact refl p
  · unfold processReleased
    dsimp only
    have h := (of_streams rfl rfl : p.KeepsHooks { p with
      released := [], pending := p.pending.filter (· ∉ p.released) }).trans (hdelivered p.released _)
    split <;> exact h

theorem takeErrors (p : Publisher Task) : p.KeepsHooks p.takeErrors.1 := modifyRecord p _ _

end KeepsHooks

end Publisher

namespace Stage

variable {s s' : ExecStage} {names : List String} {running : List (StreamId × HookId)}

/-- The publisher may change as long as the streams keep their hooks. -/
theorem Custody.withPublisher (h : s.Custody names running) {q : Publisher Task} (hq : s.publisher.KeepsHooks q) :
    (s.withPublisher q).Custody names running := by
  have htasks : (s.withPublisher q).tasks = s.tasks := congrArg (s.work.ready ++ s.work.waiting ++ ·) hq.inbox
  refine ⟨fun name => ?_, fun e he => ?_, fun hook name harmed => ?_⟩
  · have hname := h.balanced name
    unfold held at hname ⊢
    rw [htasks]
    exact hname
  · unfold fetching at he
    rw [htasks] at he
    exact hq.hooks _ _ (h.linked e he)
  · unfold fetching
    rw [htasks]
    exact h.armed hook name harmed

theorem Custody.publishAndClose (h : s.Custody names running) {f : Publisher Task → Publisher Task × List StreamId}
    (hf : s.publisher.KeepsHooks (f s.publisher).1) : (s.publishAndClose f).Custody names running :=
  (h.withPublisher hf).closeStreams _

/-- A stream whose items will be fetched gives its name to a new hook. -/
theorem Custody.addHook {name : Option String} (h : s.Custody (name.toList ++ names) running) (path : Path)
    (label : Option String) :
    ((s.addHook name).1.withPublisher (s.publisher.addStream path label (some (s.addHook name).2)).1).Custody names
      (((s.publisher.addStream path label (some (s.addHook name).2)).2, (s.addHook name).2) :: running) := by
  have htasks : ((s.addHook name).1.withPublisher (s.publisher.addStream path label (some (s.addHook name).2)).1).tasks =
      s.tasks := rfl
  have hstreams := Publisher.KeepsHooks.addStream s.publisher path label (some (s.addHook name).2)
  refine ⟨fun other => ?_, fun e he => ?_, fun hook other harmed => ?_⟩
  · have hother := h.balanced other
    have harmed : ((s.hooks.push name).toList.filterMap id).count other = s.armedNames.count other + name.toList.count other := by
      rw [Array.toList_push, List.filterMap_append, List.count_append]
      cases name <;> rfl
    unfold held at hother ⊢
    rw [htasks]
    simp only [List.count_append] at hother ⊢
    show s.log.count _ = s.log.count _ + s.log.count _ + (((s.hooks.push name).toList.filterMap id).count other + _) + _
    omega
  · rcases List.mem_cons.1 he with rfl | he
    · show ((s.publisher.streams.push _)[s.publisher.streams.size]?).bind _ = _
      rw [Array.getElem?_push_size]
      rfl
    · exact hstreams.hooks _ _ (h.linked e he)
  · have harmed : (s.hooks.push name)[hook.index]? = some (some other) := harmed
    rw [Array.getElem?_push] at harmed
    split at harmed
    · rename_i heq
      exact ⟨_, List.mem_cons_self, congrArg HookId.mk heq.symm⟩
    · obtain ⟨e, he, heq⟩ := h.armed hook other harmed
      exact ⟨e, List.mem_cons_of_mem _ he, heq⟩

end Stage

end GraphQL
