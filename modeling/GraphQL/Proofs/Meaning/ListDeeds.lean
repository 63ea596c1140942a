import GraphQL.Proofs.Meaning.ObjectDeeds

/-!
# Completing lists and values works by deeds

A list that is streamed gets a stream of its own, whose records come one after the other from the first item on that is
not delivered with the list, and each of them gets the task for its item.
-/

namespace GraphQL

open Execution Stage

variable {c : ExecutionContext} {l l' : Ledger} {hand : List RecordId} {s s' : ExecStage} {home : RecordId}

/-! ### How lists are streamed -/

theorem does_streamUsage {group : FieldGroup} (path : Path) (hk : l.Knows s.memory group) :
    Does c (streamUsage c group path) l hand s fun out l' hand' s' => hand' = hand ∧ s'.publisher = s.publisher ∧
      s'.tasks = s.tasks ∧ c.Streams group path out ∧ ∀ u, out = .ok (some u) → l'.Knows s'.memory u.group := by
  refine Does.clear fun hc => ?_
  unfold streamUsage
  split
  · rename_i hindex
    refine Does.pure ⟨rfl, rfl, rfl, ?_, by simp⟩
    unfold ExecutionContext.Streams
    rw [if_pos hindex]
  · rename_i hindex
    have hstreams : ∀ {out : Except Error (Option StreamUsage)},
        (∃ nextGroup, newStreamUsage c group nextGroup = out) → c.Streams group path out := by
      intro out hout
      unfold ExecutionContext.Streams
      rw [if_neg hindex]
      exact hout
    refine Does.get_bind ?_
    split
    · rename_i id usage hfind
      have hid : id = group.id := by simpa using List.find?_some hfind
      subst hid
      obtain ⟨-, hstreamed⟩ := hc.explains.streamed _ _ (List.mem_of_find?_eq_some hfind)
      rw [hk.eq] at hstreamed
      exact Does.pure ⟨rfl, rfl, rfl, hstreams hstreamed.streams, fun u hu => hstreamed.knows u (Except.ok.inj hu)⟩
    · split
      · rename_i heq
        exact Does.pure ⟨rfl, rfl, rfl, hstreams ⟨_, heq⟩, by simp⟩
      · rename_i usage heq
        obtain ⟨l₁, hcontinues, hexplains, hstreamed⟩ := hc.explains.newStreamUsage hk heq rfl
        refine Does.set_bind ⟨rfl, rfl, rfl⟩ hcontinues hexplains (Does.pure ⟨rfl, rfl, rfl, ?_, ?_⟩)
        · exact hstreams ⟨_, heq⟩
        · exact fun u hu => hstreamed.knows u (Except.ok.inj hu)

/-! ### Streamed items -/

/-- A new stream is added, without records and without a task that fetches its items. -/
theorem does_addStream {α : Type} (list : StreamedList) (hook : Option HookId) {k : StreamId → ExecM α}
    {Q : α → Ledger → List RecordId → ExecStage → Prop} (hasked : list.IsAsked c)
    (hknown : l.Knows s.memory list.usage.group)
    (h : ∀ stream l' s', l.Later s l' s' → s'.publisher.Unused stream → s'.Idle stream → l'.lists stream = list →
      (∃ st, s'.publisher.stream? stream = some st ∧ st.path = list.place.path) → Does c (k stream) l' hand s' Q) :
    Does c (publish (fun p => p.addStream list.place.path list.usage.label hook) >>= k) l hand s Q := by
  refine Does.clear fun hc => ?_
  obtain ⟨hunused, hidle⟩ := hc.sound.newStream list.place.path list.usage.label hook
  have hst := Publisher.stream?_addStream s.publisher list.place.path list.usage.label hook
  have hlist : (l.withList ⟨s.publisher.streams.size⟩ list).lists ⟨s.publisher.streams.size⟩ = list :=
    Function.update_self _ _ _
  refine Does.bind (Does.publish (f := fun p => p.addStream list.place.path list.usage.label hook)
    (.stream list hook hasked) rfl rfl (fun stream st hst' hge => ?_)
    (Q := fun stream l' hand' s' => hand' = hand ∧ s'.publisher.Unused stream ∧ s'.Idle stream ∧ l'.lists stream = list ∧
      ∃ st, s'.publisher.stream? stream = some st ∧ st.path = list.place.path)
    ⟨rfl, hunused, hidle, hlist, _, hst, rfl⟩) ?_
  · have hlt := Publisher.lt_size_of_stream? hst'
    have hsize : (s.publisher.addStream list.place.path list.usage.label hook).1.streams.size =
        s.publisher.streams.size + 1 := Array.size_push _
    rw [hsize] at hlt
    obtain rfl : stream = ⟨s.publisher.streams.size⟩ := by
      cases stream
      simp only [StreamId.mk.injEq] at *
      omega
    rw [hlist]
    obtain rfl : st = _ := Option.some.inj (hst'.symm.trans hst)
    exact ⟨hasked, ⟨hknown.lt, hknown.eq, hknown.precedes⟩, rfl, rfl⟩
  · rintro stream l' _ s' hl - ⟨rfl, hunused', hidle', hlist', hst'⟩
    exact h stream l' s' hl hunused' hidle' hlist' hst'

/-- The next record of a stream comes after the one before it, or is the first one. -/
structure Ledger.Continued (c : ExecutionContext) (l : Ledger) (s : ExecStage) (stream : StreamId) (parent : RecordId)
    (position : Nat) : Prop where
  there : parent.index < s.publisher.records.size
  path : ∃ st, s.publisher.stream? stream = some st ∧ st.path = (l.lists stream).place.path
  last : s.publisher.Unused stream ∧ position = (l.lists stream).usage.initialCount ∧
      l.EnclosesList c s.publisher parent (l.lists stream) ∨
    s.publisher.Tail stream parent ∧ ∃ before, s.publisher.IsAt l stream parent before ∧ position = before + 1
  idle : s.Idle stream

/-- The next record of a stream is reported. -/
theorem does_addItems {stream : StreamId} {parent : RecordId} {position : Nat} {path : Path}
    (h : l.Continued c s stream parent position) (hpath : path = (l.lists stream).place.path.index position) :
    Does c (publish fun p => p.addItems stream path parent) l hand s fun id l' hand' s' => l' = l ∧ hand' = id :: hand ∧
      s'.publisher.Tail stream id ∧ s'.Idle stream ∧ s'.publisher.IsAt l stream id position ∧
      s'.publisher.AwaitsItem (l.lists stream).place.path id := by
  obtain ⟨hparent, ⟨st, hst, hstpath⟩, hlast, hidle⟩ := h
  refine Does.clear fun hc => ?_
  have ha := Publisher.Adds.addItems hc.sound.publisher.linked stream path hparent
  have hstreams : (s.publisher.addItems stream path parent).1.streams = s.publisher.streams :=
    List.foldlRecOn (motive := fun q : Publisher Task => q.streams = s.publisher.streams) _ _ rfl fun _ hq _ _ => hq
  refine Does.publish_same
    (.items hparent ⟨st, hst, position, by rw [hstpath]; exact hpath⟩ hpath hlast hidle) ha.inbox
    (congrArg Array.size hstreams) ⟨rfl, rfl, ha.tail rfl rfl parent (hlast.imp And.left And.left), ?_,
      ⟨_, ha.new, rfl, hpath⟩, ⟨_, st, ha.new, rfl, ?_, hstpath⟩⟩
  · intro f hf
    refine hidle f ?_
    have hold : .fetch f ∈ s.work.ready ++ s.work.waiting ++ (s.publisher.addItems stream path parent).1.inbox := hf
    rw [ha.inbox] at hold
    exact hold
  · show (s.publisher.addItems stream path parent).1.streams[stream.index]? = some st
    rw [hstreams]
    exact hst

/-- The task of a streamed item is spawned. -/
theorem does_spawnItem {list : StreamedList} {stream : StreamId} {id : RecordId} {position : Nat} {item : FieldValue}
    {path : Path} (hlist : l.lists stream = list) (hasked : list.IsAsked c) (hknown : l.Knows s.memory list.usage.group)
    (hitem : list.source.outcomes[position]? = some (.ok item)) (hat : s.publisher.IsAt l stream id position)
    (hawaits : s.publisher.AwaitsItem list.place.path id) (hpath : path = list.place.path.index position) :
    Does c (Execution.spawn (.item list.place.path id
      (streamedItemJob list.type list.usage.group list.place.info path id item))) l (id :: hand) s
      fun _ l' hand' s' => l' = l ∧ hand' = hand ∧ s.publisher.Same s'.publisher ∧
        ∀ f, .fetch f ∈ s'.tasks → .fetch f ∈ s.tasks := by
  obtain ⟨hmeant, hanswers⟩ := Ledger.streamedItemJob hlist hasked hknown hitem hat hpath
  subst hlist
  refine Does.spawn (.item _ id _) ⟨hawaits, hmeant.sites⟩ ⟨hmeant, stream, position, item, hat, hitem, hanswers⟩
    fun hsame htasks => ⟨rfl, rfl, hsame, fun f hf => ?_⟩
  rw [htasks] at hf
  rcases List.mem_append.1 hf with hf | hf
  · exact hf
  · exact absurd (List.mem_singleton.1 hf) (by simp)

theorem does_spawnItems {itemType : TypeRef} {site : Site} {usage : StreamUsage} {source : ItemSource} {stream : StreamId}
    {parent : RecordId} (index : Nat) (items : List FieldValue)
    (hlist : l.lists stream = ⟨itemType, site.place, source, usage⟩)
    (hasked : StreamedList.IsAsked c ⟨itemType, site.place, source, usage⟩) (hknown : l.Knows s.memory usage.group)
    (hitems : ∀ (i : Nat) item, items[i]? = some item → source.outcomes[index + i]? = some (.ok item))
    (hnext : l.Continued c s stream parent index) (hne : items ≠ [] ∨ s.publisher.Tail stream parent) :
    Does c (spawnItems itemType site usage stream parent index items) l hand s fun last l' hand' s' => l' = l ∧
      hand' = hand ∧ s'.publisher.Tail stream last ∧ s'.Idle stream := by
  induction items generalizing parent index s with
  | nil => exact Does.pure ⟨rfl, rfl, hne.resolve_left fun h => h rfl, hnext.idle⟩
  | cons item rest ih =>
    unfold spawnItems
    have hpath : site.path.index index = (l.lists stream).place.path.index index := by
      rw [hlist]
      rfl
    refine Does.bind (does_addItems hnext hpath) ?_
    rintro id l₁ _ s₁ hl₁ hc₁ ⟨rfl, rfl, htail, hidle, hat, hawaits⟩
    rw [hlist] at hawaits
    refine Does.bind (does_spawnItem hlist hasked (hl₁.knows hknown) (hitems 0 item rfl) hat hawaits rfl) ?_
    rintro - l₂ _ s₂ hl₂ hc₂ ⟨rfl, rfl, hsame, hfetch⟩
    have hidle₂ : s₂.Idle stream := fun f hf => hidle f (hfetch f hf)
    have htail₂ := hsame.tail htail
    have hat₂ := hl₂.isAt hc₁.sound.publisher.linked hat
    refine ih (index + 1) ((hl₁.trans hl₂).knows hknown) (fun i item' hitem' => ?_)
      ⟨(hl₂.grows.isHome hat.isItems.isHome).lt_size, ?_, .inr ⟨htail₂, index, hat₂, rfl⟩, hidle₂⟩ (.inr htail₂)
    · rw [Nat.add_right_comm]
      exact hitems (i + 1) item' hitem'
    · obtain ⟨st, hst, hstpath⟩ := hnext.path
      obtain ⟨st', hst', hpath', -⟩ := (hl₁.trans hl₂).grows.streams stream st hst
      exact ⟨st', hst', hpath'.trans hstpath⟩

/-! ### Lists -/

/-- Of children that were not run may become what may become of them one by one. -/
theorem Job.comes_gather {shape : Shape} {started : Bool} {jobs : List Job} {children : List Child} {told : Error → Prop}
    (h : List.Forall₂ (fun job child => ∀ fate, job.Comes c told fate → (Asked.child child).Comes c told fate) jobs children)
    {fate : Fate} (hfate : (Job.gather shape started (jobs.map .running)).Comes c told fate) :
    (Asked.gather shape children).Comes c told fate := by
  have hparts : Gathers shape (Job.partsOfSlots c told (jobs.map .running)) fate := hfate
  refine comes_gather_iff.2 (hparts.mono ?_)
  rw [Job.partsOfSlots_eq, List.map_map]
  show List.Forall₂ _ _ _
  rw [List.forall₂_map_left_iff, List.forall₂_map_right_iff]
  exact h

theorem Job.comes_itemJobs (type : TypeRef) (site : Site) (told : Error → Prop) (index : Nat) (items : List FieldValue) :
    List.Forall₂ (fun job child => ∀ fate, job.Comes c told fate → (Asked.child child).Comes c told fate)
      (itemJobs type site index items) (itemChildren type site.place index items) := by
  induction items generalizing index with
  | nil => exact .nil
  | cons item rest ih =>
    exact .cons (fun fate hfate =>
      (Child.comes_job ⟨type, site.place.index index, .ok item⟩ site.record site.deferMap told fate).1 hfate)
      (ih (index + 1))

theorem Ledger.Covers.itemJobs {type listType : TypeRef} {site : Site} {v : FieldValue} {source : ItemSource}
    (h : l.Covers c s home listType site v) (hdemand : c.demand listType site.place v = .items type source)
    {usage : Option StreamUsage} (husage : c.Streams site.group site.path (.ok usage)) (index : Nat)
    (items : List FieldValue) (hfirst : ∀ u, usage = some u → index + items.length ≤ u.initialCount)
    (hitems : ∀ (i : Nat) item, items[i]? = some item → source.outcomes[index + i]? = some (.ok item)) :
    ∀ job ∈ Execution.itemJobs type site index items, job.Meant c l s home := by
  induction items generalizing index with
  | nil => simp [Execution.itemJobs]
  | cons item rest ih =>
    intro job hjob
    rcases List.mem_cons.1 hjob with rfl | hjob
    · refine h.itemJob hdemand husage (fun u hu => ?_) (hitems 0 item rfl)
      have hle := hfirst u hu
      rw [List.length_cons] at hle
      omega
    · refine ih (index + 1) (fun u hu => ?_) (fun i item' hitem' => ?_) job hjob
      · rw [Nat.add_right_comm]
        exact hfirst u hu
      · rw [Nat.add_right_comm]
        exact hitems (i + 1) item' hitem'

/-- The items of a list that is at hand. -/
theorem ItemSource.first?_list (items : List FieldValue) (count : Option Nat) :
    ItemSource.first? ⟨items.map .ok, true⟩ count = some (.ok ((count.map items.take).getD items)) := by
  have hall : ∀ xs : List FieldValue, ((xs.map Except.ok : List Resolved).mapM id) = .ok xs := by
    intro xs
    induction xs with
    | nil => rfl
    | cons x rest ih =>
      rw [List.map_cons, List.mapM_cons, ih]
      rfl
  unfold first?
  cases count with
  | none => simp [hall]
  | some n => simp [← List.map_take, hall]

theorem does_completeItems {type itemType : TypeRef} {site : Site} {value : FieldValue} (items : List FieldValue)
    (hcovers : l.Covers c s home type site value)
    (hdemand : c.demand type site.place value = .items itemType ⟨items.map .ok, true⟩) :
    Does c (completeItems c itemType site items) l hand s
      (Progress.Completes c (.value type site.place value) home hand) := by
  unfold completeItems
  refine Does.clear fun hc => Does.bind (does_streamUsage site.path hcovers.known) ?_
  rintro outcome l₁ hand s₁ hl₁ hc₁ ⟨rfl, -, -, hstreams, hknown⟩
  have hcovers₁ := hl₁.covers hc.sound.publisher.linked hcovers
  cases outcome with
  | error e =>
    refine Does.steady_bind (steady_noteClosed _) fun _ s₂ _ _ _ => Does.pure (.done fun told => ?_)
    exact .unstreamed hdemand hstreams
  | ok usage =>
    dsimp only
    -- the items that are delivered with the list
    have hgo : ∀ (l' : Ledger) (s' : ExecStage), l₁.Later s₁ l' s' → ∀ count,
        (usage.map StreamUsage.initialCount).map (items.take ·) = some (items.take count) ∨
          usage = none ∧ count = items.length →
        (Progress.go (.gather .list false ((itemJobs itemType site 0 (items.take count)).map .running))).Completes c
          (.value type site.place value) home hand l' hand s' := by
      intro l' s' hl count hcount
      have hfirst : ItemSource.first? ⟨items.map .ok, true⟩ (usage.map StreamUsage.initialCount) =
          some (.ok (items.take count)) := by
        rw [ItemSource.first?_list]
        rcases hcount with hcount | ⟨rfl, rfl⟩
        · rw [hcount]
          rfl
        · simp
      refine ⟨rfl, ?_, fun told fate hfate => ?_⟩
      · refine Job.meant_gather .list false
          ((hl.covers hc₁.sound.publisher.linked hcovers₁).itemJobs hdemand hstreams 0 _ (fun u hu => ?_) ?_)
        · rcases hcount with hcount | ⟨rfl, -⟩
          · rw [hu] at hcount
            have heq : items.take u.initialCount = items.take count := Option.some.inj hcount
            rw [← heq, Nat.zero_add]
            exact List.length_take_le _ _
          · exact absurd hu (by simp)
        intro i item hitem
        have hmem : items[i]? = some item := by
          rw [List.getElem?_take] at hitem
          split at hitem
          · exact hitem
          · exact absurd hitem (by simp)
        rw [Nat.zero_add, List.getElem?_map, hmem]
        rfl
      · exact .list hdemand hstreams hfirst (Job.comes_gather (Job.comes_itemJobs itemType site told 0 _)
          (show Job.Comes c told (.gather .list false _) fate from hfate))
    cases usage with
    | none => exact Does.pure (hgo l₁ s₁ (.refl _ _) _ (.inr ⟨rfl, rfl⟩))
    | some u =>
      split
      · rename_i u' item rest husage hdrop
        cases husage
        have hasked : StreamedList.IsAsked c ⟨itemType, site.place, ⟨items.map .ok, true⟩, u⟩ :=
          ⟨type, value, hcovers.value, hdemand, hstreams⟩
        refine does_addStream ⟨itemType, site.place, ⟨items.map .ok, true⟩, u⟩ none hasked (hknown u rfl) ?_
        intro stream l₂ s₂ hl₂ hunused hidle hlist hst
        have hwithin := hl₂.enclosesList hc₁.sound.publisher.linked (hcovers₁.enclosesList hdemand u)
        refine Does.bind (does_spawnItems u.initialCount (items.drop u.initialCount) hlist
          hasked (hl₂.knows (hknown u rfl)) (fun i item' hitem' => ?_)
          ⟨hwithin.lt_size, by rw [hlist]; exact hst, .inl ⟨hunused, by rw [hlist], by rw [hlist]; exact hwithin⟩, hidle⟩
          (.inl ?_)) ?_
        · rw [List.getElem?_drop] at hitem'
          rw [List.getElem?_map, hitem']
          rfl
        · rw [hdrop]
          exact List.cons_ne_nil _ _
        · rintro last _ _ s₃ hl₃ hc₃ ⟨rfl, rfl, htail, hidle₃⟩
          refine Does.bind (Does.publish_same (f := fun p => (p.setFinal last, ())) (.final htail hidle₃) rfl rfl
            (Q := fun _ l' hand' _ => l' = _ ∧ hand' = _) ⟨rfl, rfl⟩) ?_
          rintro - _ _ s₄ hl₄ - ⟨rfl, rfl⟩
          exact Does.pure (hgo _ s₄ (hl₂.trans (hl₃.trans hl₄)) _ (.inl rfl))
      · exact Does.pure (hgo l₁ s₁ (.refl _ _) _ (.inl rfl))

theorem does_completeStream {type itemType : TypeRef} {site : Site} {value : FieldValue} (source : ItemStream)
    (hcovers : l.Covers c s home type site value)
    (hdemand : c.demand type site.place value = .items itemType source.source) :
    Does c (completeStream c itemType site source) l hand s
      (Progress.Completes c (.value type site.place value) home hand) := by
  unfold completeStream
  refine Does.clear fun hc => Does.bind (does_streamUsage site.path hcovers.known) ?_
  rintro outcome l₁ hand s₁ hl₁ - ⟨rfl, -, -, hstreams, hknown⟩
  have hcovers₁ := hl₁.covers hc.sound.publisher.linked hcovers
  cases outcome with
  | error e =>
    refine Does.steady_bind (steady_noteClosed _) fun _ s₂ _ _ _ => Does.pure (.done fun told => ?_)
    exact .unstreamed hdemand hstreams
  | ok usage =>
    refine Does.pure ⟨rfl, ⟨⟨⟨type, value, source.source, hcovers₁, hdemand, rfl⟩, hstreams, ?_, ?_⟩, trivial⟩, ?_⟩
    · exact fun u hu => hknown u (by rw [hu])
    · exact fun u _ => Nat.zero_le _
    · rintro told fate (⟨e, hfirst, rfl⟩ | ⟨items, hfirst, hfate⟩)
      · exact .unlisted hdemand hstreams hfirst
      · exact .list hdemand hstreams hfirst (comes_gather_iff.2 hfate)

theorem does_completeList {type itemType : TypeRef} {site : Site} {value : FieldValue}
    (hcovers : l.Covers c s home type site value)
    (hdemand : c.demand type site.place value = match value.items? with
      | some source => .items itemType source
      | none => .outcome (.error (CompletionError.notIterable site.info).toError)) :
    Does c (completeList c itemType site value) l hand s
      (Progress.Completes c (.value type site.place value) home hand) := by
  unfold completeList
  split
  · exact does_completeStream _ hcovers hdemand
  · exact does_completeItems _ hcovers hdemand
  · rename_i items
    refine does_completeItems (items.map .value) hcovers (hdemand.trans ?_)
    rw [List.map_map]
    rfl
  · rename_i hstream hlist hvalue
    refine Does.pure (.done fun _ => .outcome (hdemand.trans ?_))
    unfold FieldValue.items?
    split
    · rename_i heq
      split at heq
      · exact absurd rfl (hlist _)
      · exact absurd rfl (hvalue _)
      · exact absurd rfl (hstream _)
      · exact absurd heq (by simp)
    · rfl

/-- The rest of a stream is left to a task. -/
theorem does_spawnFetcher {itemType : TypeRef} {site : Site} {usage : StreamUsage} {source : ItemStream}
    (hitems : l.CoversItems c s home itemType site (some usage) usage.initialCount source.source) :
    Does c (spawnFetcher itemType site usage source usage.initialCount) l hand s fun _ _ hand' _ => hand' = hand := by
  obtain ⟨⟨listType, v, whole, hcovers, hdemand, hrest⟩, hstreams, hknown, -⟩ := hitems
  have hasked : StreamedList.IsAsked c ⟨itemType, site.place, whole, usage⟩ :=
    ⟨listType, v, hcovers.value, hdemand, hstreams⟩
  unfold spawnFetcher
  have hhook : Steady (modifyGet fun s : ExecStage => (s.addHook source.openName.head?).swap) fun _ => True :=
    Steady.modifyGet fun _ => ⟨⟨rfl, rfl, rfl⟩, rfl, trivial⟩
  refine Does.clear fun hc => Does.steady_bind hhook fun hook s₁ hl₁ _ _ => ?_
  have hcovers₁ := hl₁.covers hc.sound.publisher.linked hcovers
  have hknown₁ := hl₁.knows (hknown usage rfl)
  refine does_addStream ⟨itemType, site.place, whole, usage⟩ (some hook) hasked hknown₁ ?_
  intro stream l₂ s₂ hl₂ hunused hidle hlist hst
  have hwithin := hl₂.enclosesList (hl₁.linked hc.sound.publisher.linked) (hcovers₁.enclosesList hdemand usage)
  refine Does.bind (does_addItems ⟨hwithin.lt_size, by rw [hlist]; exact hst,
    .inl ⟨hunused, by rw [hlist], by rw [hlist]; exact hwithin⟩, hidle⟩ (by rw [hlist]; rfl)) ?_
  rintro id l₃ _ s₃ hl₃ - ⟨rfl, rfl, htail, -, hat, -⟩
  obtain ⟨st, hst, hpath⟩ := hst
  obtain ⟨st', hst', hpath', -⟩ := hl₃.grows.streams stream st hst
  refine Does.spawn
    (.fetch ⟨stream, hook, source.disarm, itemType, usage.group, site.info, site.path, usage.initialCount, id⟩)
    ⟨htail, st', hst', hpath'.trans hpath⟩ ⟨hat, ?_⟩ fun _ _ => rfl
  rw [hlist]
  exact ⟨rfl, rfl, rfl, rfl, hrest.symm⟩

/-! ### Values -/

namespace ExecutionContext

variable {place : Place} {value : FieldValue} (hlater : ∀ notice ticks outcome, value ≠ .later notice ticks outcome)
include hlater

theorem demand_nonNull (inner : TypeRef) : c.demand (.nonNull inner) place value = .required inner := by
  cases value with
  | later notice ticks outcome => exact absurd rfl (hlater notice ticks outcome)
  | _ => rfl

theorem demand_list (itemType : TypeRef) : c.demand (.list itemType) place value =
    if value.isNull then .outcome (.ok .null)
    else match value.items? with
      | some source => .items itemType source
      | none => .outcome (.error (CompletionError.notIterable place.info).toError) := by
  cases value with
  | later notice ticks outcome => exact absurd rfl (hlater notice ticks outcome)
  | _ => rfl

theorem demand_named (typeName : String) : c.demand (.named typeName) place value =
    if value.isNull then .outcome (.ok .null) else c.namedDemand typeName place value := by
  cases value with
  | later notice ticks outcome => exact absurd rfl (hlater notice ticks outcome)
  | _ => rfl

end ExecutionContext

section

variable {site : Site} {value : FieldValue} (hlater : ∀ notice ticks outcome, value ≠ .later notice ticks outcome)
include hlater

theorem completeValue_nonNull (inner : TypeRef) : completeValue c (.nonNull inner) site value =
    pure (.go (.nonNull site.info (.complete inner site value))) := by
  cases value with
  | later notice ticks outcome => exact absurd rfl (hlater notice ticks outcome)
  | _ => rfl

theorem completeValue_list (itemType : TypeRef) : completeValue c (.list itemType) site value =
    if value.isNull then pure (.done (.ok .null)) else completeList c itemType site value := by
  cases value with
  | later notice ticks outcome => exact absurd rfl (hlater notice ticks outcome)
  | _ => rfl

theorem completeValue_named (typeName : String) : completeValue c (.named typeName) site value =
    if value.isNull then pure (.done (.ok .null)) else completeNamed c typeName site value := by
  cases value with
  | later notice ticks outcome => exact absurd rfl (hlater notice ticks outcome)
  | _ => rfl

end

/-- When a value comes does not matter. -/
theorem Asked.Comes.later {type : TypeRef} {place : Place} {notice notice' : Option Notice} {ticks ticks' : Nat}
    {outcome : Resolved} {told : Error → Prop} {fate : Fate}
    (h : (Asked.value type place (.later notice ticks outcome)).Comes c told fate) :
    (Asked.value type place (.later notice' ticks' outcome)).Comes c told fate := by
  cases outcome with
  | error e =>
    have hdemand : ∀ n t, c.demand type place (.later n t (.error e)) = .outcome (.error e.toError) := fun _ _ => rfl
    cases h with
    | outcome h => exact .outcome ((hdemand _ _).trans ((hdemand _ _).symm.trans h))
    | awaited h | required h | inRequired h | unstreamed h | unlisted h | list h | uncollected h | object h =>
      exact absurd ((hdemand _ _).symm.trans h) (by simp)
  | ok v =>
    have hdemand : ∀ n t, c.demand type place (.later n t (.ok v)) = .value v := fun _ _ => rfl
    cases h with
    | awaited h hlater => exact .awaited ((hdemand _ _).trans ((hdemand _ _).symm.trans h)) hlater
    | outcome h | required h | inRequired h | unstreamed h | unlisted h | list h | uncollected h | object h =>
      exact absurd ((hdemand _ _).symm.trans h) (by simp)

/-- The single value of a type with fields. -/
theorem does_singleValue {type : TypeRef} {site : Site} {value : FieldValue} {typeName : String}
    {k : Except Error Json → ExecM Progress} (hcovers : l.Covers c s home type site value) (hmanned : s.Manned home hand)
    (hk : ∀ s', l.Covers c s' home type site value → s'.Manned home hand →
      Does c (k (value.single typeName)) l hand s' (Progress.Completes c (.value type site.place value) home hand)) :
    Does c (singleValue value typeName >>= k) l hand s
      (Progress.Completes c (.value type site.place value) home hand) := by
  refine Does.clear fun hc => Does.steady_bind (steady_singleValue _ _) fun outcome s' hl _ houtcome => ?_
  subst houtcome
  exact hk s' (hl.covers hc.sound.publisher.linked hcovers) (hmanned.later hl)

/-- A value of a type that leaves open which type it is. -/
theorem does_completeAbstract {type : TypeRef} {site : Site} {value : FieldValue} {typeName : String}
    (hcovers : l.Covers c s home type site value) (hmanned : s.Manned home hand)
    (hdemand : c.demand type site.place value = match value.single typeName with
      | .error e => .outcome (.error e)
      | .ok v =>
        match runtimeType c typeName v (site.place.site .initial []) with
        | .error e => .outcome (.error e)
        | .ok runtimeType => c.objectDemand runtimeType site.place v) :
    Does c (do
      match ← singleValue value typeName with
      | .error e => return .fail e
      | .ok v =>
        match runtimeType c typeName v site with
        | .error e => return .fail e
        | .ok runtimeType => completeObject c runtimeType site v) l hand s
      (Progress.Completes c (.value type site.place value) home hand) := by
  refine does_singleValue hcovers hmanned fun s' hcovers' hmanned' => ?_
  split
  · rename_i e heq
    rw [heq] at hdemand
    exact Does.pure (.done fun _ => .outcome hdemand)
  · rename_i v heq
    rw [heq] at hdemand
    have hsite : runtimeType c typeName v (site.place.site .initial []) = runtimeType c typeName v site := rfl
    simp only [hsite] at hdemand
    split
    · rename_i e heq
      rw [heq] at hdemand
      exact Does.pure (.done fun _ => .outcome hdemand)
    · rename_i objectType heq
      rw [heq] at hdemand
      exact does_completeObject hcovers' hdemand hmanned'

theorem does_completeNamed {type : TypeRef} {site : Site} {value : FieldValue} {typeName : String}
    (hcovers : l.Covers c s home type site value)
    (hdemand : c.demand type site.place value = c.namedDemand typeName site.place value) (hmanned : s.Manned home hand) :
    Does c (completeNamed c typeName site value) l hand s
      (Progress.Completes c (.value type site.place value) home hand) := by
  unfold ExecutionContext.namedDemand at hdemand
  have hleaf : c.demand type site.place value = .outcome (value.single typeName >>= c.leaf typeName) →
      Does c (do return .done (← completeLeaf c typeName value)) l hand s
        (Progress.Completes c (.value type site.place value) home hand) := by
    intro hdemand
    refine Does.steady_bind (steady_completeLeaf c typeName value) fun out s' _ _ hout => ?_
    subst hout
    exact Does.pure (.done fun _ => .outcome hdemand)
  unfold completeNamed
  split
  · rename_i hkind
    rw [hkind] at hdemand
    exact hleaf hdemand
  · rename_i hkind
    rw [hkind] at hdemand
    exact hleaf hdemand
  · rename_i hkind
    rw [hkind] at hdemand
    exact does_completeAbstract hcovers hmanned hdemand
  · rename_i hkind
    rw [hkind] at hdemand
    exact does_completeAbstract hcovers hmanned hdemand
  · rename_i hkind
    rw [hkind] at hdemand
    refine does_singleValue hcovers hmanned fun s' hcovers' hmanned' => ?_
    split
    · rename_i e heq
      simp only [heq] at hdemand
      exact Does.pure (.done fun _ => .outcome hdemand)
    · rename_i v heq
      simp only [heq] at hdemand
      exact does_completeObject hcovers' hdemand hmanned'
  · refine Does.steady_bind (steady_noteClosed _) fun _ s' _ _ _ => Does.pure (.done fun _ => .outcome (hdemand.trans ?_))
    split <;> first | rfl | contradiction

theorem does_completeValue {type : TypeRef} {site : Site} {value : FieldValue}
    (hcovers : l.Covers c s home type site value) (hmanned : s.Manned home hand) :
    Does c (completeValue c type site value) l hand s
      (Progress.Completes c (.value type site.place value) home hand) := by
  by_cases hlater : ∃ notice ticks outcome, value = .later notice ticks outcome
  · obtain ⟨notice, ticks, outcome, rfl⟩ := hlater
    have hgo : ∀ s', l.Later s l s' → l.Covers c s' home type site (.later notice ticks outcome) →
        (Progress.go (.await type site (.fresh ticks) outcome)).Completes c
          (.value type site.place (.later notice ticks outcome)) home hand l hand s' := by
      refine fun s' _ hcovers' => ⟨rfl, ⟨hcovers'.serves, fun v hv => ?_⟩, fun told fate hfate => hfate.later⟩
      subst hv
      exact ⟨.awaited hcovers'.value rfl, hcovers'.within.awaited rfl, hcovers'.known, hcovers'.serves, hcovers'.rooted⟩
    unfold completeValue
    dsimp only
    split
    · refine Does.clear fun hc => Does.steady_bind (steady_noteCall _) fun _ s' hl _ _ => ?_
      exact Does.pure (hgo s' hl (hl.covers hc.sound.publisher.linked hcovers))
    · exact Does.pure (hgo s (.refl l s) hcovers)
  · have hlater : ∀ notice ticks outcome, value ≠ .later notice ticks outcome :=
      fun notice ticks outcome heq => hlater ⟨notice, ticks, outcome, heq⟩
    cases type with
    | nonNull inner =>
      have hdemand : c.demand (.nonNull inner) site.place value = _ := ExecutionContext.demand_nonNull hlater inner
      rw [completeValue_nonNull hlater]
      refine Does.pure ⟨rfl, ⟨.required hcovers.value hdemand, hcovers.within.required hdemand, hcovers.known,
        hcovers.serves, hcovers.rooted⟩, ?_⟩
      intro told fate hfate
      cases fate with
      | out out =>
        obtain ⟨result, hresult, rfl⟩ := hfate
        exact .required hdemand hresult
      | note e => exact .inRequired hdemand hfate
    | list itemType =>
      have hdemand : c.demand (.list itemType) site.place value = _ := ExecutionContext.demand_list hlater itemType
      rw [completeValue_list hlater]
      split
      · rename_i hnull
        rw [if_pos hnull] at hdemand
        exact Does.pure (.done fun _ => .outcome hdemand)
      · rename_i hnull
        rw [if_neg hnull] at hdemand
        exact does_completeList hcovers hdemand
    | named typeName =>
      have hdemand : c.demand (.named typeName) site.place value = _ := ExecutionContext.demand_named hlater typeName
      rw [completeValue_named hlater]
      split
      · rename_i hnull
        rw [if_pos hnull] at hdemand
        exact Does.pure (.done fun _ => .outcome hdemand)
      · rename_i hnull
        rw [if_neg hnull] at hdemand
        exact does_completeNamed hcovers hdemand hmanned

end GraphQL
