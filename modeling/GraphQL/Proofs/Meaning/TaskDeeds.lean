import GraphQL.Proofs.Meaning.RunDeeds

/-!
# Running tasks works by deeds

A task with its record in hand is run.  If it waits, it still does what it should for the record that is in hand then;
if it is done, it has let go of its record.  All of this are deeds, but for the completion of a set of fields with which
its task ends.
-/

namespace GraphQL

open Execution Stage

variable {c : ExecutionContext} {l l' : Ledger} {rest : List RecordId} {s s' : ExecStage}

/-- A task that ran has let go of its record, or it waits and does what it should for the record in hand. -/
def Task.Remains (c : ExecutionContext) (rest : List RecordId) (task? : Option Task) (l' : Ledger)
    (hand' : List RecordId) (s' : ExecStage) : Prop :=
  match task? with
  | none => hand' = rest
  | some task => hand' = task.record :: rest ∧ s'.publisher.Accepts task ∧ task.Meant c l' s'

/-! ### Items -/

theorem steady_fire (hook : HookId) : Steady (modify (fun s => s.fire hook) : ExecM PUnit) fun _ => True := by
  refine Steady.modify fun s => ?_
  unfold fire
  split <;> exact ⟨⟨rfl, rfl, rfl⟩, rfl⟩

theorem steady_retire (hook : HookId) : Steady (modify (fun s => s.retire hook) : ExecM PUnit) fun _ => True := by
  refine Steady.modify fun s => ?_
  unfold retire
  split <;> exact ⟨⟨rfl, rfl, rfl⟩, rfl⟩

theorem Publisher.size_streams_failItems (p : Publisher Task) (id : RecordId) (e : Error) :
    (p.failItems id e).1.inbox = p.inbox ∧ (p.failItems id e).1.streams.size = p.streams.size := by
  unfold failItems
  split
  · dsimp only
    unfold release
    split <;> exact ⟨rfl, Array.size_modify⟩
  · exact ⟨rfl, rfl⟩

theorem Publisher.keeps_release (p : Publisher Task) (id : RecordId) :
    (p.release id).inbox = p.inbox ∧ (p.release id).streams = p.streams := by
  unfold release
  split <;> exact ⟨rfl, rfl⟩

/-- Items fail, after what was to be delivered below the list is filtered. -/
theorem does_failItems {listPath : Path} {stream : StreamId} {id : RecordId} {position : Nat} {e : Error}
    (hid : s.publisher.AwaitsItem listPath id) (hat : s.publisher.IsAt l stream id position)
    (he : (l.lists stream).Fails c position e) :
    Does c (do
      Execution.publishAndClose fun p => p.filter listPath id
      Execution.publishAndClose fun p => p.failItems id e
      return none) l (id :: rest) s (Task.Remains c rest) := by
  intro hc
  have hd : Deed c l (id :: rest) s l rest
      ((s.publishAndClose fun p => p.filter listPath id).publishAndClose fun p => p.failItems id e) :=
    .failItems hid hat he
  have hleaves := Publisher.Leaves.filter s listPath id
  obtain ⟨hmemory₁, htasks₁, -⟩ := publishAndClose_keeps (s := s) (f := fun p => p.filter listPath id)
    (inbox_filter _ _ _)
  obtain ⟨hinbox, hsize⟩ := Publisher.size_streams_failItems
    (s.publishAndClose fun p => p.filter listPath id).publisher id e
  obtain ⟨hmemory₂, htasks₂, hstreams₂⟩ := publishAndClose_keeps (s := s.publishAndClose fun p => p.filter listPath id)
    (f := fun p => p.failItems id e) hinbox
  obtain ⟨hl, hc'⟩ := hc.move_same hd.move hd.notes (hmemory₂.trans hmemory₁)
    (fun task htask => .inl (htasks₁ task (htasks₂ task htask))) (by rw [hstreams₂, hsize, hleaves.streams])
  exact Leads.bind (Leads.modify (Leads.bind (Leads.modify (Leads.pure ⟨l, rest, .of_deed hd, hl, hc', rfl⟩))))

/-- The record of a task that awaits an item awaits it as long as it is in hand. -/
theorem Publisher.AwaitsItem.later {listPath : Path} {id : RecordId} {hand : List RecordId}
    (h : s.publisher.AwaitsItem listPath id) (hl : l.Later s l' s') (hc : l'.Clear c (id :: hand) s') :
    s'.publisher.AwaitsItem listPath id := by
  obtain ⟨r, st, hr, -, hst, hpath⟩ := h
  obtain ⟨r', hr', hgr⟩ := hl.grows.records id _ hr
  obtain ⟨st', hst', hpath', -⟩ := hl.grows.streams r.stream st hst
  cases hgr with
  | @items _ r' hstream =>
    rcases hc.sound.opened id List.mem_cons_self with ⟨g, hgr⟩ | ⟨r₀, hr₀, hc₀⟩
    · rw [hr'] at hgr
      exact absurd hgr (by simp)
    · rw [hr'] at hr₀
      cases hr₀
      exact ⟨r', st', hr', hc₀, by rw [hstream]; exact hst', hpath'.trans hpath⟩

/-! ### Fetching -/

/-- What fetches the items of a stream stands at the end of its records. -/
structure Fetcher.Fetches (c : ExecutionContext) (l : Ledger) (s : ExecStage) (f : Fetcher) : Prop where
  tail : s.publisher.Tail f.stream f.record
  path : ∃ st, s.publisher.stream? f.stream = some st ∧ st.path = f.path
  isAt : s.publisher.IsAt l f.stream f.record f.index
  brings : f.Brings (l.lists f.stream)
  asked : (l.lists f.stream).IsAsked c
  known : l.Knows s.memory (l.lists f.stream).usage.group

theorem Ledger.Clear.fetches {hand : List RecordId} {f : Fetcher} (h : l.Clear c hand s)
    (haccepts : s.publisher.Accepts (.fetch f)) (hmeant : Task.Meant c l s (.fetch f)) : f.Fetches c l s := by
  obtain ⟨htail, st, hst, hpath⟩ := haccepts
  obtain ⟨hasked, hknown, -⟩ := h.lists f.stream st hst
  exact ⟨htail, ⟨st, hst, hpath⟩, hmeant.1, hmeant.2, hasked, hknown⟩

/-- Nothing that concerns a fetcher changes while it looks at its source. -/
theorem Fetcher.Fetches.aside {f : Fetcher} (h : f.Fetches c l s) (hl : l.Later s l s') (hp : s'.publisher = s.publisher) :
    f.Fetches c l s' :=
  ⟨by rw [hp]; exact h.tail, by rw [hp]; exact h.path, by rw [hp]; exact h.isAt, h.brings, h.asked, hl.knows h.known⟩

/-- The next item is that at the index. -/
theorem Fetcher.Brings.outcome {f : Fetcher} {list : StreamedList} (h : f.Brings list) {outcome : Resolved}
    {outcomes : List Resolved} {ends : Bool} (hsource : f.source.source = ⟨outcome :: outcomes, ends⟩) :
    list.source.outcomes[f.index]? = some outcome := by
  have hdrop : list.source.outcomes.drop f.index = outcome :: outcomes := by
    have hsources := h.source.symm.trans hsource
    exact congrArg ItemSource.outcomes hsources
  rw [← Nat.add_zero f.index, ← List.getElem?_drop, hdrop]
  rfl

/-- After an item, the items after it are to come. -/
theorem Fetcher.Brings.next {f : Fetcher} {list : StreamedList} (h : f.Brings list) {after : ItemStream}
    {outcome : Resolved} (hsource : f.source.source = ⟨outcome :: after.source.outcomes, after.source.ends⟩)
    (next : RecordId) :
    Fetcher.Brings { f with source := after, index := f.index + 1, record := next } list := by
  refine ⟨h.type, h.group, h.info, h.path, ?_⟩
  have hsources : list.source.drop f.index = ⟨outcome :: after.source.outcomes, after.source.ends⟩ :=
    h.source.symm.trans hsource
  have houtcomes : list.source.outcomes.drop (f.index + 1) = after.source.outcomes := by
    have hdrop : list.source.outcomes.drop f.index = outcome :: after.source.outcomes := by
      exact congrArg ItemSource.outcomes hsources
    rw [← List.drop_drop, hdrop]
    rfl
  have hends : (list.source.drop f.index).ends = after.source.ends := by rw [hsources]
  show after.source = ItemSource.mk (list.source.outcomes.drop (f.index + 1)) (list.source.drop f.index).ends
  rw [houtcomes, hends]

/-- An item came from the stream: its task is spawned, and the next record of the stream is reported. -/
theorem does_fetched {f : Fetcher} (after : ItemStream) (item : FieldValue) (hf : f.Fetches c l s)
    (hsource : f.source.source = ⟨.ok item :: after.source.outcomes, after.source.ends⟩) :
    Does c (do
      Execution.spawn (.item f.path f.record
        (streamedItemJob f.itemType f.group f.info (f.path.index f.index) f.record item))
      publish fun p => p.addItems f.stream (f.path.index (f.index + 1)) f.record)
      l (f.record :: rest) s fun next l' hand' s' => hand' = next :: rest ∧
        Fetcher.Fetches c l' s' { f with source := after, index := f.index + 1, record := next } := by
  obtain ⟨htail, ⟨st, hst, hpath⟩, hat, hbrings, hasked, hknown⟩ := hf
  have hawaits : s.publisher.AwaitsItem (l.lists f.stream).place.path f.record := by
    rw [← hbrings.path]
    exact Publisher.Accepts.awaitsItem (f := f) ⟨htail, st, hst, hpath⟩
  refine Does.clear fun hc => ?_
  have hidle := hc.sound.idle htail
  have hspawn := @does_spawnItem c l rest s (l.lists f.stream) f.stream f.record f.index item _ rfl hasked hknown (hbrings.outcome hsource) hat hawaits rfl
  rw [← hbrings.type, ← hbrings.group, ← hbrings.info, ← hbrings.path] at hspawn
  refine Does.bind hspawn ?_
  rintro - l₁ rest s₁ hl₁ hc₁ ⟨rfl, rfl, hsame, hfetch⟩
  have hat₁ := hl₁.isAt hc.sound.publisher.linked hat
  have htail₁ := hsame.tail htail
  obtain ⟨st₁, hst₁, hpath₁, -⟩ := hl₁.grows.streams f.stream st hst
  have hnext : l₁.Continued c s₁ f.stream f.record (f.index + 1) :=
    ⟨(hl₁.grows.isHome hat.isItems.isHome).lt_size, ⟨st₁, hst₁, (hpath₁.trans hpath).trans hbrings.path⟩,
      .inr ⟨htail₁, f.index, hat₁, rfl⟩, fun g hg => hidle g (hfetch g hg)⟩
  refine (does_addItems hnext (by rw [hbrings.path])).later ?_
  rintro next _ _ s₂ hl₂ ⟨rfl, rfl, htail₂, -, hat₂, -⟩
  obtain ⟨st₂, hst₂, hpath₂, -⟩ := hl₂.grows.streams f.stream st₁ hst₁
  exact ⟨rfl, htail₂, ⟨st₂, hst₂, hpath₂.trans (hpath₁.trans hpath)⟩, hat₂, hbrings.next hsource next, hasked,
    hl₂.knows (hl₁.knows hknown)⟩

theorem does_fetchItems (count : Nat) {f : Fetcher} (hf : f.Fetches c l s) :
    Does c (fetchItems count f) l (f.record :: rest) s (Task.Remains c rest) := by
  induction count generalizing f l s with
  | zero => exact Does.pure ⟨rfl, ⟨hf.tail, hf.path⟩, hf.isAt, hf.brings⟩
  | succ count ih =>
    unfold fetchItems
    refine Does.steady_bind (steady_pollStream f.source) fun polled s₁ hl₁ hp₁ htells => ?_
    have hf₁ := hf.aside hl₁ hp₁
    obtain ⟨after, polled⟩ := polled
    dsimp only at htells ⊢
    split
    · have hsource : after.source = f.source.source := htells
      exact Does.pure ⟨rfl, ⟨hf₁.tail, hf₁.path⟩, hf₁.isAt, hf₁.brings.type, hf₁.brings.group, hf₁.brings.info,
        hf₁.brings.path, hsource.trans hf₁.brings.source⟩
    · refine Does.steady_ite (steady_retire f.hook) fun s₂ hl₂ hp₂ => ?_
      have hf₂ := hf₁.aside hl₂ hp₂
      have hawaits : s₂.publisher.AwaitsItem f.path f.record :=
        Publisher.Accepts.awaitsItem (f := f) ⟨hf₂.tail, hf₂.path⟩
      refine Does.get_bind ?_
      split
      · refine Does.steady_bind (steady_noteClosed _) fun _ s' hl' hp' _ => ?_
        have hf' := hf₂.aside hl' hp'
        refine Does.bind (Does.publish_same (f := fun p => (p.retireItems f.record, ())) (.retireItems hf'.tail)
          (Publisher.keeps_release _ _).1 (congrArg Array.size (Publisher.keeps_release _ _).2) (Q := fun _ _ hand' _ => hand' = rest)
          rfl) ?_
        rintro - l₃ rest s₃ - - rfl
        exact Does.steady_bind (steady_fire _) fun _ s₄ _ _ _ => Does.pure rfl
      · split
        · rename_i item _
          rw [← bind_assoc]
          refine Does.bind (does_fetched after item hf₂ htells) ?_
          rintro next l₃ _ s₃ - - ⟨rfl, hnext⟩
          exact ih hnext
        · rename_i e _
          have hitem : (l.lists f.stream).source.outcomes[f.index]? = some (.error e) := by
            have hsource : f.source.source = ⟨[.error e], true⟩ := htells
            exact hf₂.brings.outcome hsource
          refine does_failItems hawaits hf₂.isAt ?_
          rw [hf₂.brings.group, hf₂.brings.path]
          exact .source hitem
        · refine Does.bind (Does.publish_same (f := fun p => ((p.setEnd f.record).completeItems f.record [], ()))
            (.endItems hf₂.tail) (Publisher.keeps_release _ _).1 (congrArg Array.size (Publisher.keeps_release _ _).2)
            (Q := fun _ _ hand' _ => hand' = rest) rfl) ?_
          rintro - l₃ rest s₃ - - rfl
          exact Does.pure rfl

/-! ### Tasks -/

/-- The set of fields completes with a value that its fields come to if what was noted is told. -/
def Publisher.SetGives (c : ExecutionContext) (l : Ledger) (p : Publisher Task) (id : RecordId) (v : Json) : Prop :=
  ∃ r, p.record? id = some (.fieldSet r) ∧ c.FieldsAt (l.sets id) ∧ (l.sets id).path = r.path ∧
    p.Gives c id (c.asked (l.sets id)) v

/-- Work led to a stage that is clear: by deeds, or by deeds and the completion of a set of fields, after which nothing
remains to be done. -/
inductive Worked (c : ExecutionContext) (l : Ledger) (hand : List RecordId) (s : ExecStage) (rest : List RecordId)
    (task? : Option Task) : ExecStage → Prop
  | deeds {l' hand' s'} (deeds : Deeds c l hand s l' hand' s') (later : l.Later s l' s') (clear : l'.Clear c hand' s')
      (h : Task.Remains c rest task? l' hand' s') : Worked c l hand s rest task? s'
  | set {l' id v s₁} (deeds : Deeds c l hand s l' (id :: rest) s₁) (hdone : task? = none)
      (hv : s₁.publisher.SetGives c l' id v) (before : l'.Clear c (id :: rest) s₁)
      (later : l.Later s l' (s₁.withPublisher (s₁.publisher.completeFieldSet id v)))
      (clear : l'.Clear c rest (s₁.withPublisher (s₁.publisher.completeFieldSet id v))) :
      Worked c l hand s rest task? (s₁.withPublisher (s₁.publisher.completeFieldSet id v))

theorem Publisher.keeps_completeFieldSet (p : Publisher Task) (id : RecordId) (v : Json) :
    (p.completeFieldSet id v).inbox = p.inbox ∧ (p.completeFieldSet id v).streams = p.streams := by
  unfold completeFieldSet
  refine List.foldlRecOn (motive := fun q : Publisher Task => q.inbox = p.inbox ∧ q.streams = p.streams) _ _ ⟨rfl, rfl⟩
    fun q hq fragment _ => ?_
  dsimp only
  split
  · split
    · obtain ⟨hinbox, hstreams⟩ := keeps_release (q.finishFieldSet id fragment) fragment
      exact ⟨hinbox.trans hq.1, hstreams.trans hq.2⟩
    · exact hq
  · exact hq

theorem Publisher.keeps_failFieldSet (p : Publisher Task) (id : RecordId) (e : Error) :
    (p.failFieldSet id e).inbox = p.inbox ∧ (p.failFieldSet id e).streams = p.streams := by
  unfold failFieldSet
  refine List.foldlRecOn (motive := fun q : Publisher Task => q.inbox = p.inbox ∧ q.streams = p.streams) _ _ ⟨rfl, rfl⟩
    fun q hq fragment _ => ?_
  dsimp only
  refine ⟨(keeps_release _ fragment).1.trans hq.1, (keeps_release _ fragment).2.trans hq.2⟩

/-- The data of a set of fields is there. -/
theorem worked_completeFieldSet {hand : List RecordId} {s₀ : ExecStage} {id : RecordId} {v : Json}
    (hdeeds : Deeds c l hand s₀ l' (id :: rest) s) (hl : l.Later s₀ l' s) (hc : l'.Clear c (id :: rest) s)
    (hv : s.publisher.SetGives c l' id v) :
    Leads (do
      Execution.publishUnit fun p => p.completeFieldSet id v
      return none) s fun task? s' => Worked c l hand s₀ rest task? s' := by
  have hset : s.publisher.IsFieldSet id := by
    obtain ⟨r, hr, -⟩ := hv
    exact ⟨r, hr⟩
  obtain ⟨hinbox, hstreams⟩ := s.publisher.keeps_completeFieldSet id v
  have htasks : (s.withPublisher (s.publisher.completeFieldSet id v)).tasks = s.tasks := by
    show s.work.ready ++ s.work.waiting ++ (s.publisher.completeFieldSet id v).inbox = _
    rw [hinbox]
    rfl
  obtain ⟨hl', hc'⟩ := hc.move_same (.completeSet v hset) (.of_eq (Publisher.noted_completeFieldSet _ id v)) rfl (fun task htask => .inl (htasks ▸ htask))
    (congrArg Array.size hstreams)
  exact Leads.bind (Leads.bind (Leads.get (Leads.bind (Leads.set (Leads.pure (Leads.pure
    (.set hdeeds rfl hv hc (hl.trans hl') hc')))))))

/-- The job of a task may run: what may be noted in it may be noted in what its record stands for. -/
theorem Job.Fit.of_answers {home : RecordId} {job : Job} {asked : Asked} (hjob : job.Meant c l s home)
    (h : job.Answers c s.publisher home asked) (hasks : l.Asks c s.publisher home asked) : job.Fit c l s home :=
  ⟨hjob, fun _ he => ⟨asked, hasks, h _ (fun _ _ => trivial) _ he⟩⟩

theorem leads_task (c : ExecutionContext) (fuel : Nat) {task : Task} (hc : l.Clear c (task.record :: rest) s)
    (haccepts : s.publisher.Accepts task) (hmeant : task.Meant c l s) :
    Leads (task.run c fuel) s fun task? s' => Worked c l (task.record :: rest) s rest task? s' := by
  -- what is done by deeds
  have hdeeds : ∀ {m : ExecM (Option Task)} {l₁ s₁ hand₁}, Deeds c l (task.record :: rest) s l₁ hand₁ s₁ →
      l.Later s l₁ s₁ → l₁.Clear c hand₁ s₁ → Does c m l₁ hand₁ s₁ (Task.Remains c rest) →
      Leads m s₁ fun task? s' => Worked c l (task.record :: rest) s rest task? s' := by
    intro m l₁ s₁ hand₁ hd hl hc₁ hm
    exact (hm hc₁).imp fun task? s' ⟨l', hand', hd', hl', hc', hremains⟩ =>
      .deeds (hd.trans hd') (hl.trans hl') hc' hremains
  cases task with
  | fieldSet path id data =>
    obtain ⟨hdata, ⟨r, hr, hpath⟩, hfields, hsetPath, hanswers⟩ := hmeant
    have hfit := Job.Fit.of_answers hdata hanswers (.fields ⟨r, hr⟩)
    unfold Task.run
    refine Leads.andThen (does_run c fuel data hfit (.inl List.mem_cons_self) hc) ?_
    rintro out s₁ ⟨l₁, _, hd₁, hl₁, hc₁, rfl, hmeant₁, hout⟩
    obtain ⟨r₁, hr₁, hg⟩ := hl₁.grows.records id _ hr
    rw [← hl₁.sets id (Publisher.lt_size_of_record? hr)] at hfields hsetPath hanswers
    cases hg with
    | @fieldSet _ g hp =>
      cases out with
      | waiting data' =>
        exact hdeeds hd₁ hl₁ hc₁ (Does.pure ⟨rfl, ⟨⟨_, hr₁⟩, hmeant₁.sites⟩, hmeant₁, ⟨_, hr₁, hp.trans hpath⟩, hfields,
          hsetPath, fun told htold fate h => hanswers told (htold.before hl₁) fate (hout told htold fate h)⟩)
      | done outcome =>
        cases outcome with
        | ok v =>
          exact worked_completeFieldSet hd₁ hl₁ hc₁ ⟨_, hr₁, hfields, hsetPath.trans (hp.trans hpath).symm,
            fun told htold => hanswers told (htold.before hl₁) _ (hout told htold _ rfl)⟩
        | error e =>
          refine hdeeds hd₁ hl₁ hc₁ (Does.bind (does_filter path id (Q := fun _ l' hand' _ => l' = l₁ ∧ hand' = id :: rest)
            ⟨rfl, rfl⟩) ?_)
          rintro - l₂ _ s₂ hl₂ - ⟨rfl, rfl⟩
          obtain ⟨hinbox, hstreams⟩ := s₂.publisher.keeps_failFieldSet id e
          refine Does.bind (Does.publish_same (f := fun p => (p.failFieldSet id e, ()))
            (.failSet e (hl₂.grows.isFieldSet ⟨_, hr₁⟩)) hinbox (congrArg Array.size hstreams)
            (Q := fun _ _ hand' _ => hand' = rest) rfl) ?_
          rintro - l₃ rest s₃ - - rfl
          exact Does.pure rfl
  | item listPath id value =>
    obtain ⟨hvalue, stream, position, item, hat, hitem, hanswers⟩ := hmeant
    have hfit := Job.Fit.of_answers hvalue hanswers (.item hat hitem)
    unfold Task.run
    refine Leads.andThen (does_run c fuel value hfit (.inl List.mem_cons_self) hc) ?_
    rintro out s₁ ⟨l₁, _, hd₁, hl₁, hc₁, rfl, hmeant₁, hout⟩
    have hawaits := haccepts.1.later hl₁ hc₁
    have hat₁ := hl₁.isAt hc.sound.publisher.linked hat
    have hlist := hl₁.lists_of_isAt hc.sound.publisher.linked hat
    rw [← hlist] at hitem hanswers
    -- what the item comes to if what was noted is told
    have hcomes : ∀ told, s₁.publisher.Told id told → ∀ fate, Ran.Comes c told out fate →
        (Asked.child ((l₁.lists stream).child position item)).Comes c told fate :=
      fun told htold fate h => hanswers told (htold.before hl₁) fate (hout told htold fate h)
    cases out with
    | waiting value' =>
      exact hdeeds hd₁ hl₁ hc₁ (Does.pure ⟨rfl, ⟨hawaits, hmeant₁.sites⟩, hmeant₁, stream, position, item, hat₁, hitem,
        hcomes⟩)
    | done outcome =>
      cases outcome with
      | ok v =>
        refine hdeeds hd₁ hl₁ hc₁ (Does.bind (Does.publish_same (f := fun p => (p.completeItems id [v], ()))
          (.completeItems hat₁ ⟨item, hitem, fun told htold => hcomes told htold _ rfl⟩) (Publisher.keeps_release _ _).1
          (congrArg Array.size (Publisher.keeps_release _ _).2) (Q := fun _ _ hand' _ => hand' = rest) rfl) ?_)
        rintro - l₂ rest s₂ - - rfl
        exact Does.pure rfl
      | error e =>
        exact hdeeds hd₁ hl₁ hc₁ (does_failItems hawaits hat₁
          (.item hitem ((hcomes _ (fun _ he => he) _ rfl).settles rfl)))
  | fetch f => exact hdeeds .refl (.refl l s) hc (does_fetchItems _ (hc.fetches haccepts hmeant))

end GraphQL
