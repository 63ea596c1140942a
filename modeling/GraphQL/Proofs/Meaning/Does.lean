import GraphQL.Proofs.Execution.Passage
import GraphQL.Proofs.Meaning.Deeds

/-!
# Steps that work by deeds

`Does c m l hand s Q` says that whatever the step `m` does from a stage that a ledger makes clear (`Ledger.Clear`) is a
series of deeds, after which a continued ledger makes the stage clear, and that its outcome has the property `Q`.
-/

namespace GraphQL

open Execution Stage

variable {α β : Type} {c : ExecutionContext} {l l' l'' : Ledger} {hand hand' : List RecordId} {s s' : ExecStage}

/-- A stage with a task for each open record, of which the ledger says what everything in it stands for. -/
structure Ledger.Clear (c : ExecutionContext) (l : Ledger) (hand : List RecordId) (s : ExecStage) : Prop where
  sound : Sound hand s
  explains : l.Explains c s.memory
  tasks : ∀ task ∈ s.tasks, task.Meant c l s
  noted : ∀ id, ∀ e ∈ s.publisher.noted id, l.Allows c s.publisher id e
  lists : ∀ stream st, s.publisher.stream? stream = some st → (l.lists stream).IsAsked c ∧
    l.Knows s.memory (l.lists stream).usage.group ∧ st.path = (l.lists stream).place.path ∧
    st.label = (l.lists stream).usage.label

/-- From a stage that is clear, the step is a series of deeds, and its outcome has a property. -/
def Does (c : ExecutionContext) (m : ExecM α) (l : Ledger) (hand : List RecordId) (s : ExecStage)
    (Q : α → Ledger → List RecordId → ExecStage → Prop) : Prop :=
  l.Clear c hand s → Leads m s fun a s' => ∃ l' hand', Deeds c l hand s l' hand' s' ∧ l.Later s l' s' ∧
    l'.Clear c hand' s' ∧ Q a l' hand' s'

namespace Ledger.Clear

/-- A move leaves the stage clear if new tasks are meant and a new list is known. -/
theorem move (h : l.Clear c hand s) (m : Move hand s hand' s')
    (hold : ∀ stream : StreamId, stream.index < s.publisher.streams.size → l'.lists stream = l.lists stream)
    (hsets : ∀ id : RecordId, id.index < s.publisher.records.size → l'.sets id = l.sets id)
    (hnotes : l.Notes c s.publisher s'.publisher) (hmemory : s'.memory = s.memory) (hgroups : l'.groups = l.groups)
    (htasks : ∀ task ∈ s'.tasks, task ∈ s.tasks ∨ task.Meant c l' s')
    (hlists : ∀ stream st, s'.publisher.stream? stream = some st → s.publisher.streams.size ≤ stream.index →
      (l'.lists stream).IsAsked c ∧ l'.Knows s'.memory (l'.lists stream).usage.group ∧
        st.path = (l'.lists stream).place.path ∧ st.label = (l'.lists stream).usage.label) :
    l.Later s l' s' ∧ l'.Clear c hand' s' := by
  have hgrows := m.growsFrom
  have hsound := m.sound h.sound
  have hlater : l.Later s l' s' :=
    ⟨⟨⟨hold, hsets, hgrows⟩, fun _ _ => by rw [hgroups], by simp only [hmemory, Nat.le_refl],
      by simp only [hmemory, Nat.le_refl], fun _ => hsound.publisher.linked⟩, m.retains.pending, hnotes.kept⟩
  refine ⟨hlater, hsound, ?_, fun task htask => ?_, fun id e he => ?_, fun stream st hst => ?_⟩
  · rw [hmemory]
    obtain ⟨hpositive, hcollected, hstreamed⟩ := h.explains
    have hknows : ∀ {group}, l.Knows s.memory group → l'.Knows s.memory group :=
      fun hk => ⟨hk.lt, by rw [hgroups]; exact hk.eq, hk.precedes⟩
    refine ⟨hpositive, fun typeName id collected hmem => ?_, fun id usage hmem => ?_⟩
    · obtain ⟨hlt, hc⟩ := hcollected typeName id collected hmem
      exact ⟨hlt, by rw [hgroups]; exact ⟨hc.collects, hc.fits, fun field hfield => hknows (hc.knows field hfield)⟩⟩
    · obtain ⟨hlt, hu⟩ := hstreamed id usage hmem
      exact ⟨hlt, by rw [hgroups]; exact ⟨hu.streams, fun u hu' => hknows (hu.knows u hu')⟩⟩
  · rcases htasks task htask with hold | hnew
    · exact hlater.task h.sound.publisher.linked (hlater.noted _) (h.tasks task hold)
    · exact hnew
  · exact hlater.allows h.sound.publisher.linked ((hnotes.allowed id e he).elim (h.noted id e) fun hnew => hnew)
  · rcases Nat.lt_or_ge stream.index s.publisher.streams.size with hlt | hge
    · obtain ⟨st₀, hst₀⟩ : ∃ st₀, s.publisher.stream? stream = some st₀ := ⟨_, Array.getElem?_eq_getElem hlt⟩
      obtain ⟨hasked, hknown, hpath, hlabel⟩ := h.lists stream st₀ hst₀
      obtain ⟨st', hst', hpath', hlabel', -⟩ := hgrows.streams stream st₀ hst₀
      rw [hst] at hst'
      cases hst'
      rw [hold stream hlt]
      exact ⟨hasked, hlater.knows hknown, hpath'.trans hpath, hlabel'.trans hlabel⟩
    · exact hlists stream st hst hge

/-- Without a new stream. -/
theorem move_same (h : l.Clear c hand s) (m : Move hand s hand' s') (hnotes : l.Notes c s.publisher s'.publisher)
    (hmemory : s'.memory = s.memory) (htasks : ∀ task ∈ s'.tasks, task ∈ s.tasks ∨ task.Meant c l s')
    (hstreams : s'.publisher.streams.size = s.publisher.streams.size) : l.Later s l s' ∧ l.Clear c hand' s' :=
  h.move m (fun _ _ => rfl) (fun _ _ => rfl) hnotes hmemory rfl htasks fun _ _ hst hge =>
    absurd (hstreams ▸ Publisher.lt_size_of_stream? hst) (Nat.not_lt.2 hge)

/-- Only the memory changes. -/
theorem remember (h : l.Clear c hand s) (hb : s.Beside s') (hcontinues : l.Continues s.memory l' s'.memory)
    (hexplains : l'.Explains c s'.memory) : Deed c l hand s l' hand s' ∧ l.Later s l' s' ∧ l'.Clear c hand s' := by
  have m : Move hand s hand s' := .aside hb
  have htasks : s'.tasks = s.tasks := by
    unfold Stage.tasks
    rw [hb.work, hb.publisher]
  have hlater := hcontinues.later hb.publisher
  refine ⟨.aside hcontinues.lists hcontinues.sets m (by rw [hb.publisher]; exact Publisher.Leaves.refl _), hlater,
    m.sound h.sound, hexplains, fun task htask => ?_, fun id e he => ?_, fun stream st hst => ?_⟩
  · rw [htasks] at htask
    exact hlater.task h.sound.publisher.linked (hlater.noted _) (h.tasks task htask)
  · rw [hb.publisher] at he
    exact hlater.allows h.sound.publisher.linked (h.noted id e he)
  · rw [hb.publisher] at hst
    obtain ⟨hasked, hknown, hrest⟩ := h.lists stream st hst
    rw [hcontinues.lists]
    exact ⟨hasked, hcontinues.knows hknown, hrest⟩

end Ledger.Clear

namespace Does

variable {Q Q' : α → Ledger → List RecordId → ExecStage → Prop}

theorem imp {m : ExecM α} (h : Does c m l hand s Q) (himp : ∀ a l' hand' s', Q a l' hand' s' → Q' a l' hand' s') :
    Does c m l hand s Q' :=
  fun hc => (h hc).imp fun a s' ⟨l', hand', hd, hl, hc', hq⟩ => ⟨l', hand', hd, hl, hc', himp a l' hand' s' hq⟩

/-- The stage that the step leads to comes later. -/
theorem later {m : ExecM α} {R : α → Ledger → List RecordId → ExecStage → Prop} (h : Does c m l hand s Q)
    (himp : ∀ a l' hand' s', l.Later s l' s' → Q a l' hand' s' → R a l' hand' s') : Does c m l hand s R :=
  fun hc => (h hc).imp fun a s' ⟨l', hand', hd, hl, hc', hq⟩ => ⟨l', hand', hd, hl, hc', himp a l' hand' s' hl hq⟩

theorem pure {a : α} (h : Q a l hand s) : Does c (Pure.pure a) l hand s Q :=
  fun hc => Leads.pure ⟨l, hand, .refl, .refl l s, hc, h⟩

theorem bind {m : ExecM α} {k : α → ExecM β} {R : β → Ledger → List RecordId → ExecStage → Prop}
    (h : Does c m l hand s Q)
    (hk : ∀ a l' hand' s', l.Later s l' s' → l'.Clear c hand' s' → Q a l' hand' s' → Does c (k a) l' hand' s' R) :
    Does c (m >>= k) l hand s R := by
  intro hc
  refine (h hc).andThen fun a s' ⟨l', hand', hd, hl, hc', hq⟩ => ?_
  exact (hk a l' hand' s' hl hc' hq hc').imp fun b s'' ⟨l'', hand'', hd', hl', hc'', hr⟩ =>
    ⟨l'', hand'', hd.trans hd', hl.trans hl', hc'', hr⟩

/-- What is clear may be used. -/
theorem clear {m : ExecM α} (h : l.Clear c hand s → Does c m l hand s Q) : Does c m l hand s Q := fun hc => h hc hc

theorem failure : Does c (failure : ExecM α) l hand s Q := fun _ => Leads.failure

/-- A step that only looks. -/
theorem steady_bind {m : ExecM α} {k : α → ExecM β} {P : α → Prop} {R : β → Ledger → List RecordId → ExecStage → Prop}
    (h : Steady m P) (hk : ∀ a s', l.Later s l s' → s'.publisher = s.publisher → P a → Does c (k a) l hand s' R) :
    Does c (m >>= k) l hand s R := by
  refine bind (Q := fun a l' hand' s' => l' = l ∧ hand' = hand ∧ s'.publisher = s.publisher ∧ P a) (fun hc => ?_) ?_
  · refine (h s).imp fun a s' ⟨hb, hmemory, ha⟩ => ?_
    have hcontinues : l.Continues s.memory l s'.memory := by
      rw [hmemory]
      exact .refl l _
    obtain ⟨hd, hl, hc'⟩ := hc.remember hb hcontinues (by rw [hmemory]; exact hc.explains)
    exact ⟨l, hand, .of_deed hd, hl, hc', rfl, rfl, hb.publisher, ha⟩
  · rintro a _ _ s' hl - ⟨rfl, rfl, hp, ha⟩
    exact hk a s' hl hp ha

/-- A step that only looks, and is taken under a condition. -/
theorem steady_ite {b : Prop} [Decidable b] {m : ExecM PUnit} {k : ExecM β}
    {R : β → Ledger → List RecordId → ExecStage → Prop} (h : Steady m fun _ => True)
    (hk : ∀ s', l.Later s l s' → s'.publisher = s.publisher → Does c k l hand s' R) :
    Does c (if b then (m >>= fun _ => k) else k) l hand s R := by
  split
  · exact steady_bind h fun _ s' hl hp _ => hk s' hl hp
  · exact hk s (.refl l s) rfl

theorem get_bind {k : ExecStage → ExecM β} {R : β → Ledger → List RecordId → ExecStage → Prop}
    (h : Does c (k s) l hand s R) : Does c (MonadState.get >>= k) l hand s R :=
  fun hc => Leads.bind (Leads.get (h hc))

/-- Something is remembered. -/
theorem set_bind {t : ExecStage} {k : PUnit → ExecM β} {R : β → Ledger → List RecordId → ExecStage → Prop}
    (hb : s.Beside t) (hcontinues : l.Continues s.memory l' t.memory) (hexplains : l'.Explains c t.memory)
    (h : Does c (k ⟨⟩) l' hand t R) : Does c (MonadStateOf.set t >>= k) l hand s R := by
  intro hc
  obtain ⟨hd, hl, hc'⟩ := hc.remember hb hcontinues hexplains
  refine Leads.bind (Leads.set ((h hc').imp fun b s'' ⟨l'', hand'', hd', hl', hc'', hr⟩ => ?_))
  exact ⟨l'', hand'', (Deeds.of_deed hd).trans hd', hl.trans hl', hc'', hr⟩

/-- A deed changes the publisher and no tasks. -/
theorem publish {f : Publisher Task → Publisher Task × α}
    (d : Deed c l hand s l' hand' (s.withPublisher (f s.publisher).1)) (hgroups : l'.groups = l.groups)
    (hinbox : (f s.publisher).1.inbox = s.publisher.inbox)
    (hlists : ∀ stream st, (f s.publisher).1.stream? stream = some st → s.publisher.streams.size ≤ stream.index →
      (l'.lists stream).IsAsked c ∧ l'.Knows s.memory (l'.lists stream).usage.group ∧
        st.path = (l'.lists stream).place.path ∧ st.label = (l'.lists stream).usage.label)
    (h : Q (f s.publisher).2 l' hand' (s.withPublisher (f s.publisher).1)) :
    Does c (Execution.publish f) l hand s Q := by
  intro hc
  have htasks : (s.withPublisher (f s.publisher).1).tasks = s.tasks := by
    show s.work.ready ++ s.work.waiting ++ (f s.publisher).1.inbox = _
    rw [hinbox]
    rfl
  obtain ⟨hl, hc'⟩ := hc.move d.move d.lists d.sets d.notes rfl hgroups (fun task htask => .inl (htasks ▸ htask)) hlists
  exact Leads.bind (Leads.get (Leads.bind (Leads.set (Leads.pure ⟨l', hand', .of_deed d, hl, hc', h⟩))))

/-- A deed changes the publisher, and neither tasks nor streams. -/
theorem publish_same {f : Publisher Task → Publisher Task × α}
    (d : Deed c l hand s l hand' (s.withPublisher (f s.publisher).1))
    (hinbox : (f s.publisher).1.inbox = s.publisher.inbox)
    (hstreams : (f s.publisher).1.streams.size = s.publisher.streams.size)
    (h : Q (f s.publisher).2 l hand' (s.withPublisher (f s.publisher).1)) : Does c (Execution.publish f) l hand s Q :=
  publish d rfl hinbox (fun _ _ hst hge =>
    absurd (hstreams ▸ Publisher.lt_size_of_stream? hst) (Nat.not_lt.2 hge)) h

/-- A deed that may close streams. -/
theorem modify {f : ExecStage → ExecStage} {Q : PUnit → Ledger → List RecordId → ExecStage → Prop}
    (d : Deed c l hand s l hand' (f s)) (hmemory : (f s).memory = s.memory) (htasks : ∀ task ∈ (f s).tasks, task ∈ s.tasks)
    (hstreams : (f s).publisher.streams.size = s.publisher.streams.size) (h : Q ⟨⟩ l hand' (f s)) :
    Does c (modify f : ExecM PUnit) l hand s Q := by
  intro hc
  obtain ⟨hl, hc'⟩ := hc.move_same d.move d.notes hmemory (fun task htask => .inl (htasks task htask)) hstreams
  exact Leads.modify ⟨l, hand', .of_deed d, hl, hc', h⟩

/-- The order of the records in hand does not matter. -/
theorem perm {m : ExecM α} {hand₁ : List RecordId} (hperm : hand.Perm hand₁) (h : Does c m l hand₁ s Q) :
    Does c m l hand s Q := by
  intro hc
  have hd : Deed c l hand s l hand₁ s := .aside rfl rfl (Move.perm hperm) (Publisher.Leaves.refl _)
  obtain ⟨hl, hc'⟩ := hc.move_same hd.move hd.notes rfl (fun _ htask => .inl htask) rfl
  refine (h hc').imp fun a s' ⟨l', hand', hd', hl', hc'', hq⟩ => ?_
  exact ⟨l', hand', (Deeds.of_deed hd).trans hd', hl.trans hl', hc'', hq⟩

/-- A task is spawned that does what it should. -/
theorem spawn (task : Task) {Q : Unit → Ledger → List RecordId → ExecStage → Prop}
    (htask : s.publisher.Accepts task) (hmeant : task.Meant c l s)
    (h : s.publisher.Same (s.spawn task).publisher → (s.spawn task).tasks = s.tasks ++ [task] →
      Q () l hand (s.spawn task)) : Does c (Execution.spawn task) l (task.record :: hand) s Q := by
  intro hc
  have hsame := same_spawn hc.sound.closed task
  have htasks := tasks_spawn hc.sound.closed task
  have hperm : (s.spawn task).tasks.Perm (task :: s.tasks) := htasks ▸ List.perm_append_singleton task s.tasks
  have hd : Deed c l (task.record :: hand) s l hand (s.spawn task) :=
    .aside rfl rfl (.rest htask hsame hperm (outputDone_spawn hc.sound.closed task)) (.of_same hsame)
  have hmemory : (s.spawn task).memory = s.memory := by
    unfold Stage.spawn
    rw [if_neg (by simp [hc.sound.closed])]
  have hlater : l.Later s l (s.spawn task) :=
    ⟨⟨⟨fun _ _ => rfl, fun _ _ => rfl, hsame.grows _⟩, fun _ _ => rfl, by simp only [hmemory, Nat.le_refl],
      by simp only [hmemory, Nat.le_refl], fun _ => (hsame.sound hc.sound.publisher).linked⟩, hsame.pending, hd.notes.kept⟩
  have hnew : ∀ t ∈ (s.spawn task).tasks, t ∈ s.tasks ∨ t.Meant c l (s.spawn task) := by
    intro t ht
    rw [htasks] at ht
    rcases List.mem_append.1 ht with ht | ht
    · exact .inl ht
    · rw [List.mem_singleton.1 ht]
      exact .inr (hlater.task hc.sound.publisher.linked (hlater.noted _) hmeant)
  obtain ⟨hl, hc'⟩ := hc.move_same hd.move hd.notes hmemory hnew (by rw [hsame.streams])
  exact Leads.modify ⟨l, hand, .of_deed hd, hl, hc', h hsame htasks⟩

end Does

end GraphQL
