import GraphQL.Proofs.Meaning.Delivered

/-!
# Streams bring their items in order

The deliveries of a stream are the entries of its records, in the order in which they are sent.  A record that is pending
and does not stand for the first item that is streamed comes after a record for the item before, and that one was sent
(`Ledger.Queue`): if it brought nothing because its list had failed or ended there, nothing of the stream would come after
it.  So the deliveries of a stream stand for consecutive items, beginning with the first that is streamed
(`Turns.queue`).  The items before that one are in the list that is delivered with what is around it
(`Settles.holdsFirst`).  Both together are `ExecutionContext.streamed_of_respondWith`.
-/

namespace GraphQL

open Execution Stage

/-- The record stands for items of the stream. -/
def Publisher.isOf (p : Publisher Task) (stream : StreamId) (id : RecordId) : Bool :=
  match p.record? id with
  | some (.items r) => r.stream = stream
  | _ => false

/-- The records of a stream that were sent, with their entries. -/
def deliveries (looks : List (Publisher Task)) (stream : StreamId) : List (RecordId × IncrementalEntry) :=
  looks.flatMap fun p => (p.sent.filter (p.isOf stream ·.1)).map fun sent => (sent.1, p.entryOf sent)

/-- The entry brings what an item of the list comes to. -/
def StreamedList.Tells (c : ExecutionContext) (list : StreamedList) (position : Nat) (entry : IncrementalEntry) : Prop :=
  ∃ v errors, entry = .stream ⟨[v], list.place.path.index position, list.usage.label, errors⟩ ∧ list.Gives c position v

/-- The streams have brought their items in order. -/
structure Ledger.Queue (c : ExecutionContext) (l : Ledger) (looks : List (Publisher Task)) (s : ExecStage) : Prop where
  queued : ∀ stream id position, id ∈ s.publisher.pending → s.publisher.IsAt l stream id position →
    (l.lists stream).usage.initialCount < position →
    ∃ before ∈ (deliveries looks stream).map Prod.fst, ∃ k, s.publisher.IsAt l stream before k ∧ position = k + 1
  noted : ∀ stream, ∀ id ∈ sentIds looks, s.publisher.OfStream stream id → id ∈ (deliveries looks stream).map Prod.fst
  told : ∀ (stream : StreamId) (i : Nat) id entry, (deliveries looks stream)[i]? = some (id, entry) →
    s.publisher.IsAt l stream id ((l.lists stream).usage.initialCount + i) ∧
      (l.lists stream).Tells c ((l.lists stream).usage.initialCount + i) entry

variable {c : ExecutionContext} {l l' : Ledger} {gone : List RecordId} {s s₀ s' : ExecStage} {stream : StreamId}
  {looks : List (Publisher Task)} {free : Bool} {p q : Publisher Task} {id : RecordId} {position : Nat}

theorem deliveries_concat (looks : List (Publisher Task)) (p : Publisher Task) (stream : StreamId) :
    deliveries (looks ++ [p]) stream = deliveries looks stream ++
      (p.sent.filter (p.isOf stream ·.1)).map fun sent => (sent.1, p.entryOf sent) := by
  simp [deliveries]

namespace Publisher

theorem isOf_iff : p.isOf stream id = true ↔ p.OfStream stream id := by
  unfold isOf OfStream
  cases hr : p.record? id with
  | none => simp
  | some r => cases r <;> simp

theorem IsAt.ofStream (h : p.IsAt l stream id position) : p.OfStream stream id :=
  ofStream_iff.2 ⟨_, isAt_iff.1 h⟩

/-! ### Counting -/

theorem Counted.first_or_next (h : p.Counted l stream id position) :
    position = (l.lists stream).usage.initialCount ∧ (∀ other, p.OfStream stream other → id.index ≤ other.index) ∨
      ∃ before k, position = k + 1 ∧ p.IsAt l stream before k ∧ before.index < id.index ∧
        ∀ other, p.OfStream stream other → other.index < id.index → other.index ≤ before.index := by
  cases h with
  | first h => exact .inl ⟨rfl, h⟩
  | @next before k hat hlt h => exact .inr ⟨before, k, rfl, hat, hlt, h⟩

namespace Filled

variable (h : p.Filled c l gone)
include h

/-- Records stand for items that are streamed. -/
theorem initialCount_le (hat : p.IsAt l stream id position) : (l.lists stream).usage.initialCount ≤ position := by
  induction position generalizing id with
  | zero =>
    rcases (h.counted stream id _ hat).first_or_next with ⟨heq, -⟩ | ⟨_, _, heq, -⟩
    · exact Nat.le_of_eq heq.symm
    · exact absurd heq (by simp)
  | succ position ih =>
    rcases (h.counted stream id _ hat).first_or_next with ⟨heq, -⟩ | ⟨_, k, heq, hbefore, -⟩
    · exact Nat.le_of_eq heq.symm
    · obtain rfl := Nat.succ.inj heq
      exact Nat.le_succ_of_le (ih hbefore)

/-- Later records of a stream stand for later items. -/
theorem position_lt {other : RecordId} {position' : Nat} (hat : p.IsAt l stream id position)
    (hat' : p.IsAt l stream other position') (hlt : id.index < other.index) : position < position' := by
  induction position' generalizing other with
  | zero =>
    rcases (h.counted stream other _ hat').first_or_next with ⟨-, hfirst⟩ | ⟨_, _, heq, -⟩
    · exact absurd (hfirst id hat.ofStream) (Nat.not_le.2 hlt)
    · exact absurd heq (by simp)
  | succ position' ih =>
    rcases (h.counted stream other _ hat').first_or_next with ⟨-, hfirst⟩ | ⟨before, k, heq, hbefore, -, hprevious⟩
    · exact absurd (hfirst id hat.ofStream) (Nat.not_le.2 hlt)
    · obtain rfl := Nat.succ.inj heq
      rcases Nat.lt_or_ge id.index before.index with hlt' | hge
      · exact Nat.lt_succ_of_lt (ih hbefore hlt')
      · obtain rfl : id = before := RecordId.index_inj.1 (Nat.le_antisymm (hprevious id hat.ofStream hlt) hge)
        have hpaths := (isAt_iff.1 hat).symm.trans (isAt_iff.1 hbefore)
        obtain rfl : position = position' := by simpa [Path.index] using hpaths
        exact Nat.lt_succ_self _

/-- Each item has one record. -/
theorem isAt_inj {other : RecordId} (hat : p.IsAt l stream id position) (hat' : p.IsAt l stream other position) :
    id = other := by
  rcases Nat.lt_trichotomy id.index other.index with hlt | heq | hgt
  · exact absurd (h.position_lt hat hat' hlt) (Nat.lt_irrefl _)
  · exact RecordId.index_inj.1 heq
  · exact absurd (h.position_lt hat' hat hgt) (Nat.lt_irrefl _)

end Filled

/-! ### Looks -/

/-- Released items that are there are sent. -/
theorem mem_sent_of_items {r : ItemsRecord} (hid : id ∈ p.released) (hr : p.record? id = some (.items r))
    (hends : r.endsStream = false) (hitems : r.items ≠ []) : id ∈ p.sent.map Prod.fst := by
  have hmem : ∀ (ids gone : List RecordId), id ∈ ids → id ∈ (p.sending gone ids).map Prod.fst := by
    intro ids
    induction ids with
    | nil => exact fun _ hnil => absurd hnil (by simp)
    | cons first rest ih =>
      intro gone hcons
      rw [sending, List.map_append, List.map_map, List.mem_append]
      have hfirst : (p.sends gone first).map (Prod.fst ∘ (·, p.labelOf first)) = p.sends gone first := List.map_id _
      rw [hfirst]
      rcases List.mem_cons.1 hcons with rfl | hrest
      · left
        unfold sends
        rw [hr]
        simp [hends, hitems]
      · exact .inr (ih _ hrest)
  exact hmem p.released [] hid

/-- Each record of items is sent once in a look. -/
theorem Sound.nodup_sent_items (h : p.Sound) (stream : StreamId) :
    ((p.sent.filter (p.isOf stream ·.1)).map Prod.fst).Nodup := by
  -- what is sent of a stream are some of the records that are released
  have hsub : ∀ (ids gone : List RecordId),
      List.Sublist (((p.sending gone ids).filter (p.isOf stream ·.1)).map Prod.fst) ids := by
    intro ids
    induction ids with
    | nil => exact fun _ => List.Sublist.refl _
    | cons first rest ih =>
      intro gone
      rw [sending, List.filter_append, List.map_append]
      by_cases hfirst : p.isOf stream first = true
      · obtain ⟨r, hr, -⟩ := isOf_iff.1 hfirst
        have hsends : p.sends gone first = [] ∨ p.sends gone first = [first] := by
          unfold sends
          rw [hr]
          dsimp only
          split
          · exact .inl rfl
          · exact .inr rfl
        rcases hsends with hnil | hone
        · rw [hnil]
          exact (ih _).cons first
        · rw [hone]
          have hhead : (([first].map (·, p.labelOf first)).filter (p.isOf stream ·.1)).map Prod.fst = [first] := by
            simp [hfirst]
          rw [hhead]
          exact (ih _).cons_cons first
      · have hnil : ((p.sends gone first).map (·, p.labelOf first)).filter (p.isOf stream ·.1) = [] := by
          refine List.filter_eq_nil_iff.2 fun sent hsent => ?_
          obtain ⟨id, hid, rfl⟩ := List.mem_map.1 hsent
          show ¬ p.isOf stream id = true
          intro hof
          obtain ⟨r, hr, -⟩ := isOf_iff.1 hof
          unfold sends at hid
          split at hid
          · split at hid
            · exact absurd hid (by simp)
            · exact hfirst (List.mem_singleton.1 hid ▸ hof)
          · split at hid
            · have hunsent := (Bool.and_eq_true _ _ ▸ (List.mem_filter.1 hid).2).2
              rw [isUnsent, hr] at hunsent
              exact absurd hunsent (by simp)
            · exact absurd hid (by simp)
          · exact absurd hid (by simp)
        rw [hnil]
        exact (ih _).cons first
  exact (hsub p.released []).nodup h.prompt.releasedNodup

end Publisher

/-! ### While work runs -/

namespace Ledger.Queue

/-- While records are added and nothing else becomes pending, the queues stay. -/
theorem carries (h : l.Queue c looks s) (hc : l.Carries s l' s') (hs : s.publisher.Sound)
    (hsent : ∀ id ∈ sentIds looks, id.index < s.publisher.records.size)
    (hpending : s'.publisher.pending = s.publisher.pending) : l'.Queue c looks s' := by
  have hl := hs.linked
  have hlists : ∀ {stream id position}, s.publisher.IsAt l stream id position → l'.lists stream = l.lists stream :=
    fun hat => hc.lists_of_isAt hl hat
  refine ⟨fun stream id position hid hat hlt => ?_, fun stream id hid hof => ?_, fun stream i id entry hentry => ?_⟩
  · rw [hpending] at hid
    obtain ⟨r, hr, -⟩ := hs.prompt.deliverable id hid
    have hold := hc.isAt_old hl hat (Publisher.lt_size_of_record? hr)
    rw [hlists hold] at hlt
    obtain ⟨before, hbefore, k, hk, heq⟩ := h.queued stream id position hid hold hlt
    exact ⟨before, hbefore, k, hc.isAt hl hk, heq⟩
  · obtain ⟨r', hr', hstream⟩ := hof
    obtain ⟨r, hr, hg⟩ := hc.grows.old hr' (hsent id hid)
    cases hg with
    | items hstream' => exact h.noted stream id hid ⟨_, hr, hstream'.symm.trans hstream⟩
  · obtain ⟨hat, htells⟩ := h.told stream i id entry hentry
    rw [hlists hat]
    exact ⟨hc.isAt hl hat, htells⟩

/-- Before the first look, only records for the first items that are streamed may be pending. -/
theorem start (hbegun : s.Begun) (ha : l.Account c [] [] s) : l.Queue c [] s := by
  refine ⟨fun stream id position hid hat hlt => ?_, fun _ id hid => absurd hid (by simp [sentIds]),
    fun _ _ _ _ hentry => absurd hentry (by simp [deliveries])⟩
  rcases (ha.filled.counted stream id position hat).first_or_next with ⟨heq, -⟩ | ⟨before, _, _, hbefore, hbelow, -⟩
  · exact absurd heq.symm (Nat.ne_of_lt hlt)
  · -- the parent of a later record would be of the stream, but it is the initial record
    obtain ⟨hkid, -⟩ := Publisher.follows_iff.1 (hbegun.pending id hid)
    obtain ⟨⟨r, hr, -⟩, -⟩ := hbegun.ordered.parent stream before id hbefore.ofStream hat.ofStream hbelow _ hkid
    obtain ⟨r', hr'⟩ := hbegun.initial
    rw [hr] at hr'
    exact absurd hr' (by simp)

section Look

variable (h : l.Queue c looks s) (ha : l.Account c (sentIds looks) [] s)
include h ha

/-- A record that comes after a released one in its stream is filtered, unless the one before it was or is sent. -/
theorem sent_before (hordered : s.publisher.Ordered) {before : RecordId} {k : Nat} (hreleased : before ∈ s.publisher.released)
    (hbefore : s.publisher.IsAt l stream before k) (hof : s.publisher.OfStream stream id) (hlt : before.index < id.index)
    (hfiltered : (s.publisher.standing id).filtered = false) :
    before ∈ (deliveries looks stream).map Prod.fst ∨ before ∈ s.publisher.sent.map Prod.fst := by
  have ⟨r, hr, hstream, _⟩ := hbefore
  subst hstream
  have hcompleted := ha.clear.sound.publisher.prompt.completed before r hreleased hr
  have hcontent : s.publisher.content before = .batch r.batch := Publisher.content_of_record? hr
  obtain ⟨_, -, hholds⟩ := ha.filled.batches before r.batch hcontent
  cases hholds with
  | nothing _ hwhy =>
    rcases hwhy hcompleted with hgone | hfinal | hends
    · exact .inl (h.noted _ before hgone hbefore.ofStream)
    · obtain ⟨r', hr', hstream'⟩ := hof
      have hcut := hordered.final before id r r' hr hfinal hr' hstream' hlt
      have hstanding : (s.publisher.standing id).filtered = r'.filtered := by
        unfold Publisher.standing Publisher.facet
        rw [hr']
        rfl
      rw [hstanding, hcut] at hfiltered
      exact absurd hfiltered (by simp)
    · exact absurd ((ha.filled.ends before r.batch hcontent hends).2 id hof) (Nat.not_le.2 hlt)
  | @item v hitems _ hends =>
    have hitems' : r.items = [v] := hitems
    exact .inr (Publisher.mem_sent_of_items hreleased hr hends (by rw [hitems']; simp))

/-- What a look sends of a stream stands for the item after those that were delivered. -/
theorem next_of_sent (hlisted : s.publisher.Listed) {sent : RecordId × Option String} (hsent : sent ∈ s.publisher.sent)
    (hof : s.publisher.isOf stream sent.1 = true) :
    s.publisher.IsAt l stream sent.1 ((l.lists stream).usage.initialCount + (deliveries looks stream).length) ∧
      (l.lists stream).Tells c ((l.lists stream).usage.initialCount + (deliveries looks stream).length)
        (s.publisher.entryOf sent) := by
  obtain ⟨id, label⟩ := sent
  obtain ⟨r, hr, hstream⟩ := Publisher.isOf_iff.1 hof
  rcases hlisted.mem_sent hsent with ⟨hreleased, hlabel, r', hr', hends, hitems⟩ | ⟨hunsent, -⟩
  · rw [hr] at hr'
    cases hr'
    obtain ⟨position, hposition, hholds⟩ := ha.filled.batches id r.batch (Publisher.content_of_record? hr)
    cases hholds with
    | nothing hnil => exact absurd hnil hitems
    | @item v hitem _ _ hgone hv =>
      have hstream' : r.batch.stream = stream := hstream
      rw [hstream'] at hposition hv
      have hat : s.publisher.IsAt l stream id position := ⟨r, hr, hstream, hposition⟩
      have hfirst : ∀ (i : Nat) id' entry, (deliveries looks stream)[i]? = some (id', entry) → id' ∈ sentIds looks := by
        intro i id' entry hentry
        obtain ⟨p, hp, hmem⟩ := List.mem_flatMap.1 (List.mem_of_getElem? hentry)
        obtain ⟨e, he, heq⟩ := List.mem_map.1 hmem
        cases heq
        exact List.mem_flatMap.2 ⟨p, hp, List.mem_map_of_mem (List.mem_filter.1 he).1⟩
      -- no record for the item was delivered, and that for the item before it was
      have hnot : ∀ i, i < (deliveries looks stream).length → position ≠ (l.lists stream).usage.initialCount + i := by
        rintro i hi rfl
        obtain ⟨⟨id', entry⟩, hentry⟩ : ∃ e, (deliveries looks stream)[i]? = some e := ⟨_, List.getElem?_eq_getElem hi⟩
        obtain rfl := ha.filled.isAt_inj hat (h.told stream i id' entry hentry).1
        exact hgone (hfirst i id entry hentry)
      have hle := ha.filled.initialCount_le hat
      have hnext : position = (l.lists stream).usage.initialCount + (deliveries looks stream).length := by
        rcases Nat.eq_or_lt_of_le hle with heq | hlt
        · by_contra hne
          have hpos : 0 < (deliveries looks stream).length := by omega
          exact hnot 0 hpos (by omega)
        · have hpending := ha.clear.sound.publisher.prompt.released id hreleased
          obtain ⟨before, hbefore, k, hk, rfl⟩ := h.queued stream id position hpending hat hlt
          obtain ⟨⟨_, entry⟩, hmem, rfl⟩ := List.mem_map.1 hbefore
          obtain ⟨i, hi, hentry⟩ := List.getElem_of_mem hmem
          have hentry' : (deliveries looks stream)[i]? = some (_, entry) := hentry ▸ List.getElem?_eq_getElem hi
          have hpaths := (Publisher.isAt_iff.1 hk).symm.trans (Publisher.isAt_iff.1 (h.told stream i _ entry hentry').1)
          have hk' : k = (l.lists stream).usage.initialCount + i := by simpa [Path.index] using hpaths
          rcases Nat.lt_or_ge (i + 1) (deliveries looks stream).length with hlt' | hge
          · exact absurd (by omega) (hnot (i + 1) hlt')
          · omega
      rw [← hnext]
      refine ⟨hat, v, r.errors, ?_, hv.gives⟩
      have hitem' : r.items = [v] := hitem
      have hposition' : r.path = (l.lists stream).place.path.index position := hposition
      obtain ⟨st, hst⟩ := ha.clear.sound.publisher.linked.streams id r hr
      have hlabel' : label = (l.lists stream).usage.label := by
        rw [← hlabel, ← hstream, ← (ha.clear.lists r.stream st hst).2.2.2]
        unfold Publisher.labelOf
        rw [hr]
        dsimp only
        rw [hst]
        rfl
      unfold Publisher.entryOf
      rw [hr, ← hitem', ← hposition', ← hlabel']
  · unfold Publisher.isUnsent at hunsent
    rw [hr] at hunsent
    exact absurd hunsent (by simp)

/-- A look brings the next item of each stream, if any. -/
theorem look (hordered : s.publisher.Ordered) (hlisted : s.publisher.Listed) : l.Queue c (looks ++ [s.publisher]) s.look := by
  have hsound := ha.clear.sound.publisher
  have hhandled := hsound.nextResult?
  obtain ⟨hcarries, -⟩ := ha.look hlisted
  have hsize : ∀ {stream id position}, s.look.publisher.IsAt l stream id position → s.publisher.IsAt l stream id position := by
    intro stream id position hat
    obtain ⟨r', hr', hstream, hpath⟩ := hat
    obtain ⟨r, hr, hstream', hpath', -⟩ := hhandled.alike.items hr'
    exact ⟨r, hr, hstream'.symm.trans hstream, hpath'.symm.trans hpath⟩
  have hmem : ∀ {stream id}, id ∈ (deliveries looks stream).map Prod.fst →
      id ∈ (deliveries (looks ++ [s.publisher]) stream).map Prod.fst := by
    intro stream id hid
    rw [deliveries_concat, List.map_append]
    exact List.mem_append_left _ hid
  have hnew : ∀ {stream id}, id ∈ s.publisher.sent.map Prod.fst → s.publisher.OfStream stream id →
      id ∈ (deliveries (looks ++ [s.publisher]) stream).map Prod.fst := by
    intro stream id hid hof
    obtain ⟨sent, hsent, rfl⟩ := List.mem_map.1 hid
    rw [deliveries_concat, List.map_append]
    refine List.mem_append_right _ (List.mem_map.2 ⟨_, List.mem_map_of_mem (List.mem_filter.2 ⟨hsent, ?_⟩), rfl⟩)
    exact Publisher.isOf_iff.2 hof
  refine ⟨fun stream id position hid hat hlt => ?_, fun stream id hid hof => ?_, fun stream i id entry hentry => ?_⟩
  · have hat' := hsize hat
    rcases (hhandled.pending id).1 hid with ⟨hid, -⟩ | ⟨parent, hparent, hfollows⟩
    · obtain ⟨before, hbefore, k, hk, heq⟩ := h.queued stream id position hid hat' hlt
      exact ⟨before, hmem hbefore, k, hcarries.isAt hsound.linked hk, heq⟩
    · rcases (ha.filled.counted stream id position hat').first_or_next with
        ⟨heq, -⟩ | ⟨before, k, heq, hbefore, hbelow, hprevious⟩
      · exact absurd heq.symm (Nat.ne_of_lt hlt)
      · -- the parent is the record before it
        obtain ⟨hkid, hfiltered⟩ := Publisher.follows_iff.1 hfollows
        obtain ⟨hparentOf, hle⟩ := hordered.parent stream before id hbefore.ofStream hat'.ofStream hbelow parent hkid
        obtain ⟨r, hr, hchild⟩ := Publisher.mem_kids.1 hkid
        have hparentLt := (hsound.linked.children parent r hr id hchild).1
        obtain rfl : parent = before := RecordId.index_inj.1 (Nat.le_antisymm (hprevious parent hparentOf hparentLt) hle)
        refine ⟨parent, ?_, k, hcarries.isAt hsound.linked hbefore, heq⟩
        exact (h.sent_before ha hordered hparent hbefore hat'.ofStream hbelow hfiltered).elim hmem
          fun hsent => hnew hsent hbefore.ofStream
  · have hof' : s.publisher.OfStream stream id := by
      obtain ⟨r', hr', hstream⟩ := hof
      obtain ⟨r, hr, hstream', -⟩ := hhandled.alike.items hr'
      exact ⟨r, hr, hstream'.symm.trans hstream⟩
    rw [sentIds_concat, List.mem_append] at hid
    exact hid.elim (fun hid => hmem (h.noted stream id hid hof')) fun hid => hnew hid hof'
  · rw [deliveries_concat] at hentry
    rcases Nat.lt_or_ge i (deliveries looks stream).length with hlt | hge
    · rw [List.getElem?_append_left hlt] at hentry
      obtain ⟨hat, htells⟩ := h.told stream i id entry hentry
      exact ⟨hcarries.isAt hsound.linked hat, htells⟩
    · rw [List.getElem?_append_right hge] at hentry
      -- all that is sent of the stream stands for the same item, so it is one entry
      have hsame : ∀ sent ∈ s.publisher.sent.filter (s.publisher.isOf stream ·.1), _ := fun sent hsent =>
        h.next_of_sent ha hlisted (List.mem_filter.1 hsent).1 (List.mem_filter.1 hsent).2
      have hnodup := hsound.nodup_sent_items stream
      generalize s.publisher.sent.filter (s.publisher.isOf stream ·.1) = news at hentry hsame hnodup
      cases news with
      | nil => exact absurd hentry (by simp)
      | cons sent rest =>
        have hrest : rest = [] := by
          cases rest with
          | nil => rfl
          | cons other _ =>
            have heq := ha.filled.isAt_inj (hsame sent List.mem_cons_self).1
              (hsame other (List.mem_cons_of_mem _ List.mem_cons_self)).1
            exact absurd hnodup (by simp [heq])
        subst hrest
        obtain ⟨hat, htells⟩ := hsame sent List.mem_cons_self
        cases hi : i - (deliveries looks stream).length with
        | succ j =>
          rw [hi] at hentry
          exact absurd hentry (by simp)
        | zero =>
          rw [hi] at hentry
          cases hentry
          obtain rfl : i = (deliveries looks stream).length := by omega
          exact ⟨hcarries.isAt hsound.linked hat, htells⟩

end Look

end Ledger.Queue

/-- A ledger accounts for the stage after any turns, and the streams have brought their items in order. -/
theorem Turns.queue {initial : InitialResult} (h : Turns c s₀ free looks s) (h₀ : c.Answered initial s₀) :
    ∃ l : Ledger, l.Account c (sentIds looks) [] s ∧ l.Queue c looks s := by
  obtain ⟨l, ha, -, hq⟩ := h.rec_account (I := fun l looks s => l.Queue c looks s) h₀
    (fun l ha => .start h₀.begun ha)
    (fun l l' looks s s' ha hlater hq => hq.carries hlater.toCarries ha.clear.sound.publisher ha.sent hlater.pending)
    fun l looks s ha hordered hlisted hq => hq.look ha hordered hlisted
  exact ⟨l, ha, hq⟩

/-! ### Lists -/

/-- The first items of a source that are there. -/
theorem ItemSource.first?_eq_ok {source : ItemSource} {count : Option Nat} {items : List FieldValue}
    (h : source.first? count = some (.ok items)) :
    (count.map source.outcomes.take).getD source.outcomes = items.map .ok := by
  have hmapM : ∀ (outcomes : List Resolved) (items : List FieldValue),
      (outcomes.mapM fun r => r : Except ResolverError (List FieldValue)) = .ok items → outcomes = items.map .ok := by
    intro outcomes
    induction outcomes with
    | nil =>
      intro items h
      cases h
      rfl
    | cons outcome rest ih =>
      intro items h
      rw [List.mapM_cons] at h
      cases outcome with
      | error e => exact absurd h (by simp [bind, Except.bind])
      | ok item =>
        cases hrest : List.mapM (fun r => r) rest with
        | error e =>
          rw [hrest] at h
          exact absurd h (by simp [bind, Except.bind])
        | ok items' =>
          rw [hrest] at h
          cases h
          rw [ih items' hrest, List.map_cons]
  unfold first? at h
  split at h
  · exact hmapM _ _ (Option.some.inj h)
  · exact absurd h (by simp)

/-- The list that is delivered with what is around it holds the values of its first items. -/
def HoldsFirst (c : ExecutionContext) (type : TypeRef) (place : Place) (source : ItemSource) (usage : StreamUsage)
    (w : Json) : Prop :=
  ∃ values : List Json, w = .array values ∧ values.length = min usage.initialCount source.outcomes.length ∧
    ∀ (i : Nat) v, values[i]? = some v → ∃ item, source.outcomes[i]? = some (.ok item) ∧
      Settles c (.child ⟨type, place.index i, .ok item⟩) (.ok v)

/-- A streamed list comes to its first items. -/
theorem Settles.holdsFirst {type itemType : TypeRef} {place : Place} {value : FieldValue} {source : ItemSource}
    {usage : StreamUsage} {w : Json} (h : Settles c (.value type place value) (.ok w)) (hg : place.group.Grounded)
    (hdemand : c.demand type place value = .items itemType source)
    (husage : c.Streams place.group place.path (.ok (some usage))) : HoldsFirst c itemType place source usage w := by
  have hvalue := h.value
  rw [hdemand] at hvalue
  obtain ⟨usage', husage', hlisted⟩ := hvalue
  have hplace : place.Alike place := ⟨hg.alike, rfl, rfl⟩
  rw [← hplace.streams husage husage'] at hlisted
  unfold Listed at hlisted
  dsimp only [Except.map, Option.map] at hlisted
  split at hlisted
  · exact hlisted.elim
  · exact absurd hlisted (by simp)
  · rename_i items hfirst
    have hitems : source.outcomes.take usage.initialCount = items.map .ok := ItemSource.first?_eq_ok hfirst
    rw [settles_gather_iff] at hlisted
    rcases hlisted with ⟨values, hvalues, heq⟩ | ⟨_, _, _, _, heq⟩
    · rw [itemChildren_eq] at hvalues
      have hlength : values.length = items.length := by
        rw [← hvalues.length_eq, List.length_mapIdx]
      refine ⟨values, Except.ok.inj heq, ?_, fun i v hv => ?_⟩
      · rw [hlength, ← List.length_take, hitems, List.length_map]
      · obtain ⟨hi, rfl⟩ := List.getElem?_eq_some_iff.1 hv
        have hi' : i < items.length := hlength ▸ hi
        have houtcome : (source.outcomes.take usage.initialCount)[i]? = some (.ok items[i]) := by
          rw [hitems, List.getElem?_map, List.getElem?_eq_getElem hi']
          rfl
        have hsource : source.outcomes[i]? = some (.ok items[i]) := by
          rw [List.getElem?_take] at houtcome
          split at houtcome
          · exact houtcome
          · exact absurd houtcome (by simp)
        have hchild := hvalues.get (by rw [List.length_mapIdx]; exact hi') hi
        rw [List.get_eq_getElem, List.getElem_mapIdx, Nat.zero_add] at hchild
        exact ⟨items[i], hsource, hchild⟩
    · exact absurd heq (by simp)

/-- All streamed lists in the value hold their first items. -/
def Asked.HoldsLists (c : ExecutionContext) (a : Asked) (v : Json) : Prop :=
  ∀ type place value w itemType source usage, a.Holds c v (.value type place value) w →
    c.demand type place value = .items itemType source → c.Streams place.group place.path (.ok (some usage)) →
    HoldsFirst c itemType place source usage w

theorem Settles.holdsLists {a : Asked} {v : Json} (h : Settles c a (.ok v)) (hg : a.IsGrounded) : a.HoldsLists c v := by
  intro type place value w itemType source usage hheld hdemand husage
  obtain ⟨hgroup, hvalue⟩ := hheld.settles hg h
  exact hvalue.holdsFirst hgroup hdemand husage

/-! ### Answers and results -/

/-- The entries bring consecutive items of the list, beginning with the first that is streamed, and none from one on at
which the stream fails. -/
structure StreamedList.InOrder (c : ExecutionContext) (list : StreamedList) (entries : List IncrementalEntry) : Prop where
  asked : entries ≠ [] → list.IsAsked c
  told : ∀ (i : Nat) entry, entries[i]? = some entry → list.Tells c (list.usage.initialCount + i) entry
  failed : ∀ k e, list.Fails c k e → list.usage.initialCount ≤ k → list.usage.initialCount + entries.length ≤ k

/-- No item comes to a value where the stream fails. -/
theorem StreamedList.Fails.not_gives {list : StreamedList} {k : Nat} {e : Error} {v : Json} (h : list.Fails c k e)
    (hlist : list.IsAsked c) : ¬ list.Gives c k v := by
  rintro ⟨item, hitem, hv⟩
  cases h with
  | item hitem' he =>
    rw [hitem] at hitem'
    cases hitem'
    obtain ⟨_, _, -, -, husage⟩ := hlist
    exact absurd (hv.unique husage.grounded he) (by simp)
  | source he =>
    rw [hitem] at he
    exact absurd he (by simp)

/-- The deliveries of each stream are in the order of its items. -/
theorem Ledger.Queue.inOrder (h : l.Queue c looks s) (hc : l.Clear c [] s) (stream : StreamId) :
    (l.lists stream).InOrder c ((deliveries looks stream).map Prod.snd) := by
  have htold : ∀ (i : Nat) entry, ((deliveries looks stream).map Prod.snd)[i]? = some entry →
      (l.lists stream).IsAsked c ∧ (l.lists stream).Tells c ((l.lists stream).usage.initialCount + i) entry := by
    intro i entry hentry
    rw [List.getElem?_map, Option.map_eq_some_iff] at hentry
    obtain ⟨⟨id, entry'⟩, hdelivery, rfl⟩ := hentry
    obtain ⟨⟨r, hr, rfl, -⟩, htells⟩ := h.told stream i id entry' hdelivery
    obtain ⟨st, hst⟩ := hc.sound.publisher.linked.streams id r hr
    exact ⟨(hc.lists r.stream st hst).1, htells⟩
  refine ⟨fun hne => ?_, fun i entry hentry => (htold i entry hentry).2, fun k e hfails hle => ?_⟩
  · obtain ⟨entry, hmem⟩ := List.exists_mem_of_ne_nil _ hne
    obtain ⟨i, hi⟩ := List.mem_iff_getElem?.1 hmem
    exact (htold i entry hi).1
  · by_contra hlt
    have hi : k - (l.lists stream).usage.initialCount < ((deliveries looks stream).map Prod.snd).length := by omega
    obtain ⟨hlist, v, errors, -, hgives⟩ := htold _ _ (List.getElem?_eq_getElem hi)
    rw [Nat.add_sub_cancel' hle] at hgives
    exact hfails.not_gives hlist hgives

/-- Entries of items are sent for the records of a stream. -/
theorem Publisher.exists_isOf {sent : RecordId × Option String} {e : StreamEntry} (h : p.entryOf sent = .stream e) :
    ∃ stream, p.isOf stream sent.1 = true := by
  unfold entryOf at h
  split at h
  · exact absurd h (by simp)
  · rename_i r hr
    exact ⟨r.stream, isOf_iff.2 ⟨r, hr, rfl⟩⟩
  · cases h

/-- A streamed list that is delivered with what is around it holds the values of its first items, as many as are not
streamed.  The others are brought by entries, one each in the order of the items without gaps, and none comes after one at
which the stream fails. -/
theorem ExecutionContext.streamed_of_respondWith {fuel : Nat} {answer : Answer}
    (h : (c.respondWith fuel).run c.stage = some (some answer, s₀)) :
    (∀ collected data, c.collected = .ok collected → answer.data = some data → data ≠ .null →
      (c.asked (c.opening collected)).HoldsLists c data) ∧
    ∀ initial results s', answer = .incremental initial → Pulls c s₀ results s' →
      (∀ result ∈ results, ∀ entry ∈ result.incremental, ∃ a v, entry.Brings c a v ∧ a.HoldsLists c v) ∧
      ∃ free looks s, Turns c s₀ free looks s ∧ resultsOf looks = results ∧
        results.flatMap SubsequentResult.incremental = looks.flatMap (fun p => p.sent.map p.entryOf) ∧
        (∀ p ∈ looks, ∀ sent ∈ p.sent, ∀ e, p.entryOf sent = .stream e → ∃ stream, p.isOf stream sent.1 = true) ∧
        ∀ stream, ∃ list : StreamedList, list.InOrder c ((deliveries looks stream).map Prod.snd) := by
  refine ⟨fun collected data hcollected hdata hne => ?_, ?_⟩
  · have hsettles := data_of_respondWith h
    rw [hcollected] at hsettles
    obtain ⟨out, hsettles, -, hdata'⟩ := hsettles
    rw [hdata] at hdata'
    cases out with
    | error e => exact absurd (Option.some.inj hdata') hne
    | ok v =>
      obtain rfl : data = v := Option.some.inj hdata'
      exact hsettles.holdsLists (c.grounded_opening hcollected)
  · rintro initial results s' rfl hpulls
    have hanswered : c.Answered initial s₀ := ⟨fuel, h⟩
    refine ⟨fun result hresult entry hentry => ?_, ?_⟩
    · obtain ⟨a, v, hbrings, hsettles⟩ := hpulls.brings hanswered result hresult entry hentry
      exact ⟨a, v, hbrings, hsettles.holdsLists hbrings.grounded⟩
    · obtain ⟨hsound, hdone, -, hpending⟩ := hanswered.sound
      obtain ⟨free, looks, s, hturns, rfl, -⟩ := hpulls.turns hsound hdone hpending
      obtain ⟨l, ha, hqueue⟩ := hturns.queue hanswered
      exact ⟨free, looks, s, hturns, rfl, hturns.course.incremental_resultsOf hanswered,
        fun p _ sent _ e he => Publisher.exists_isOf he, fun stream => ⟨l.lists stream, hqueue.inOrder ha.clear stream⟩⟩

/-- A streamed list whose first item is slow and whose third one, which must not be null, fails. -/
def slowFirstItem : ExecutionContext :=
  .ofSelections [.ofFields "Query" [("l", .list (.nonNull (.named "String")))]]
    [("Query.l", { resolve := fun _ => .ok (.list
      [.later none 3 (.ok (.value (.string "x"))), .later none 1 (.ok (.value (.string "y"))),
        .later none 2 (.error (.custom "no")), .value (.string "z")]) })]
    (.object []) [.streamed "l"]

/-- The items of `slowFirstItem` are delivered in their order up to the one that fails. -/
theorem inOrder_slowFirstItem : ∃ initial s₀ results s', slowFirstItem.Answered initial s₀ ∧
    PullsAll slowFirstItem s₀ results s' ∧ initial.data = .object [("l", .array [])] ∧
    results.flatMap SubsequentResult.incremental =
      [.stream ⟨[.string "x"], (Path.root.key "l").index 0, none, []⟩,
        .stream ⟨[.string "y"], (Path.root.key "l").index 1, none, []⟩] ∧
    (∃ collected, slowFirstItem.collected = .ok collected ∧
      (slowFirstItem.asked (slowFirstItem.opening collected)).HoldsLists slowFirstItem initial.data) ∧
    ∃ looks stream list, resultsOf looks = results ∧ deliveries looks stream ≠ [] ∧
      StreamedList.InOrder slowFirstItem list ((deliveries looks stream).map Prod.snd) := by
  have hrun : (((slowFirstItem.results 10).run slowFirstItem.stage).bind (·.1)).map (fun out =>
      (out.1.data, out.2.flatMap SubsequentResult.incremental)) =
        some (.object [("l", .array [])], [.stream ⟨[.string "x"], (Path.root.key "l").index 0, none, []⟩,
          .stream ⟨[.string "y"], (Path.root.key "l").index 1, none, []⟩]) := by
    decide +kernel
  obtain ⟨initial, s₀, results, s', hanswered, hall, heq⟩ := ExecutionContext.pullsAll_of_map_results hrun
  obtain ⟨hinitial, hentries⟩ := Prod.mk.inj heq
  obtain ⟨fuel, hrespond⟩ := hanswered
  obtain ⟨hlists, hpulls⟩ := ExecutionContext.streamed_of_respondWith hrespond
  obtain ⟨-, -, looks, s, -, hresults, hincremental, hstreams, hinOrder⟩ := hpulls initial results s' rfl hall.pulls
  refine ⟨initial, s₀, results, s', ⟨fuel, hrespond⟩, hall, hinitial, hentries, ?_, looks, ?_⟩
  · cases hcollected : slowFirstItem.collected with
    | ok collected =>
      refine ⟨collected, rfl, hlists collected _ hcollected rfl ?_⟩
      rw [hinitial]
      simp
    | error e =>
      have hdata := ExecutionContext.data_of_respondWith hrespond
      rw [hcollected] at hdata
      exact absurd (hinitial.symm.trans (Option.some.inj hdata)) (by simp)
  · have hmem : .stream ⟨[.string "x"], (Path.root.key "l").index 0, none, []⟩ ∈
        results.flatMap SubsequentResult.incremental := by
      rw [hentries]
      exact List.mem_cons_self
    rw [hincremental] at hmem
    obtain ⟨p, hp, hmap⟩ := List.mem_flatMap.1 hmem
    obtain ⟨sent, hsent, hentry⟩ := List.mem_map.1 hmap
    obtain ⟨stream, hof⟩ := hstreams p hp sent hsent _ hentry
    obtain ⟨list, hlist⟩ := hinOrder stream
    refine ⟨stream, list, hresults, List.ne_nil_of_mem (a := (sent.1, p.entryOf sent)) ?_, hlist⟩
    exact List.mem_flatMap.2 ⟨p, hp, List.mem_map.2 ⟨sent, List.mem_filter.2 ⟨hsent, hof⟩, rfl⟩⟩

end GraphQL
