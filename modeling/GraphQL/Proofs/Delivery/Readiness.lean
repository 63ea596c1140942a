import GraphQL.Proofs.Delivery.Growth

/-!
# Pending, ready and released

Two things hold after every operation.  `Publisher.Linked`: a child has a higher number than its parents and can be
delivered, a set of fields belongs to fragments reported before it, an unfinished set of a fragment is a set of that
fragment, and items belong to a stream.  `Publisher.Prompt`: what is released is pending, and what is pending and ready
is released.
-/

namespace GraphQL

namespace Record

/-- The record can be delivered as soon as it is pending. -/
def Ready : Record → Prop
  | fragment r => r.unfinished = [] ∨ r.errors ≠ []
  | items r => r.completed = true
  | _ => False

/-- The record is one of those that become pending. -/
def IsDeliverable : Record → Prop
  | fragment _ => True
  | items _ => True
  | _ => False

/-- The sets of fields that a fragment waits for. -/
def unfinished : Record → List RecordId
  | fragment r => r.unfinished
  | _ => []

theorem Grows.isDeliverable {n : Nat} {a b : Record} (h : Record.Grows n a b) (ha : a.IsDeliverable) :
    b.IsDeliverable := by
  cases h with
  | initial => exact ha
  | fragment => trivial
  | fieldSet => exact ha
  | items => trivial

end Record

namespace Publisher

variable {ω : Type} {n : Nat} {p : Publisher ω} {id : RecordId} {f : Record → Record}

/-- The record is there, and it is one of those that become pending. -/
def IsDeliverable (p : Publisher ω) (id : RecordId) : Prop := ∃ r, p.record? id = some r ∧ r.IsDeliverable

/-- The record is a deferred fragment. -/
def IsFragment (p : Publisher ω) (id : RecordId) : Prop := ∃ r, p.record? id = some (.fragment r)

/-- The record is a set of fields, and the fragment is one of its fragments. -/
def BelongsTo (p : Publisher ω) (set fragment : RecordId) : Prop :=
  ∃ r, p.record? set = some (.fieldSet r) ∧ fragment ∈ r.fragments

/-- How records refer to others. -/
structure Linked (p : Publisher ω) : Prop where
  children : ∀ id r, p.record? id = some r → ∀ child ∈ r.children, id.index < child.index ∧ p.IsDeliverable child
  fragments : ∀ id r, p.record? id = some (.fieldSet r) → ∀ f ∈ r.fragments, f.index < id.index ∧ p.IsFragment f
  unfinished : ∀ id r, p.record? id = some r → ∀ set ∈ r.unfinished, p.BelongsTo set id
  streams : ∀ id r, p.record? id = some (.items r) → ∃ s, p.stream? r.stream = some s

/-- What is pending and what is released. -/
structure Prompt (p : Publisher ω) : Prop where
  nodup : p.pending.Nodup
  releasedNodup : p.released.Nodup
  deliverable : ∀ id ∈ p.pending, p.IsDeliverable id
  released : ∀ id ∈ p.released, id ∈ p.pending
  completed : ∀ id r, id ∈ p.released → p.record? id = some (.items r) → r.completed = true
  ready : ∀ id r, id ∈ p.pending → p.record? id = some r → r.Ready → id ∈ p.released

theorem Grows.isDeliverable {q : Publisher ω} (h : Grows n p q) (hid : p.IsDeliverable id) : q.IsDeliverable id := by
  obtain ⟨r, hr, hd⟩ := hid
  obtain ⟨r', hr', hg⟩ := h.records id r hr
  exact ⟨r', hr', hg.isDeliverable hd⟩

theorem Grows.isFragment {q : Publisher ω} (h : Grows n p q) (hid : p.IsFragment id) : q.IsFragment id := by
  obtain ⟨r, hr⟩ := hid
  obtain ⟨r', hr', hg⟩ := h.records id _ hr
  cases hg with
  | fragment => exact ⟨_, hr'⟩

theorem Grows.belongsTo {q : Publisher ω} {set : RecordId} (h : Grows n p q) (hid : p.BelongsTo set id) :
    q.BelongsTo set id := by
  obtain ⟨r, hr, hf⟩ := hid
  obtain ⟨r', hr', hg⟩ := h.records set _ hr
  cases hg with
  | fieldSet _ hfragments => exact ⟨_, hr', by rw [hfragments]; exact hf⟩

/-! ### One change -/

/-- Records keep referring to others in the right way if one of them gets new children and new unfinished sets that
are right for it. -/
theorem Linked.modifyRecord (h : p.Linked) (hgrows : ∀ r, Record.Grows n r (f r))
    (hchildren : ∀ r, p.record? id = some r → ∀ child ∈ (f r).children,
      child ∈ r.children ∨ id.index < child.index ∧ p.IsDeliverable child)
    (hunfinished : ∀ r, p.record? id = some r → ∀ set ∈ (f r).unfinished, set ∈ r.unfinished ∨ p.BelongsTo set id) :
    (p.modifyRecord id f).Linked := by
  have hg : Grows n p (p.modifyRecord id f) := Grows.modifyRecord p id hgrows
  have hold : ∀ j r', (p.modifyRecord id f).record? j = some r' →
      p.record? j = some r' ∨ ∃ r, id = j ∧ p.record? id = some r ∧ f r = r' := by
    intro j r' hr'
    rw [record?_modifyRecord] at hr'
    split at hr'
    · rename_i heq
      obtain ⟨r, hr, hfr⟩ := Option.map_eq_some_iff.1 hr'
      exact Or.inr ⟨r, heq, by rw [heq]; exact hr, hfr⟩
    · exact Or.inl hr'
  refine ⟨fun j r' hr' child hchild => ?_, fun j r' hr' fragment hf => ?_, fun j r' hr' set hset => ?_,
    fun j r' hr' => ?_⟩
  · rcases hold j r' hr' with hr | ⟨r, rfl, hr, rfl⟩
    · obtain ⟨hlt, hd⟩ := h.children j r' hr child hchild
      exact ⟨hlt, hg.isDeliverable hd⟩
    · rcases hchildren r hr child hchild with hc | ⟨hlt, hd⟩
      · obtain ⟨hlt, hd⟩ := h.children id r hr child hc
        exact ⟨hlt, hg.isDeliverable hd⟩
      · exact ⟨hlt, hg.isDeliverable hd⟩
  · rcases hold j _ hr' with hr | ⟨r, rfl, hr, heq⟩
    · obtain ⟨hlt, hd⟩ := h.fragments j r' hr fragment hf
      exact ⟨hlt, hg.isFragment hd⟩
    · have hgr := hgrows r
      rw [heq] at hgr
      cases hgr with
      | fieldSet _ hfragments =>
        obtain ⟨hlt, hd⟩ := h.fragments id _ hr fragment (by rw [← hfragments]; exact hf)
        exact ⟨hlt, hg.isFragment hd⟩
  · rcases hold j r' hr' with hr | ⟨r, rfl, hr, rfl⟩
    · exact hg.belongsTo (h.unfinished j r' hr set hset)
    · rcases hunfinished r hr set hset with hs | hs
      · exact hg.belongsTo (h.unfinished id r hr set hs)
      · exact hg.belongsTo hs
  · rcases hold j _ hr' with hr | ⟨r, rfl, hr, heq⟩
    · exact h.streams j r' hr
    · have hgr := hgrows r
      rw [heq] at hgr
      cases hgr with
      | items hs => rw [hs]; exact h.streams id _ hr

/-- What is pending stays in order if a record is changed that does not become ready by it. -/
theorem Prompt.modifyRecord (h : p.Prompt) (hgrows : ∀ r, Record.Grows n r (f r))
    (hready : ∀ r, p.record? id = some r → id ∈ p.pending → (f r).Ready → r.Ready) :
    (p.modifyRecord id f).Prompt := by
  have hg : Grows n p (p.modifyRecord id f) := Grows.modifyRecord p id hgrows
  refine ⟨h.nodup, h.releasedNodup, fun j hj => hg.isDeliverable (h.deliverable j hj), h.released,
    fun j r' hj hr' => ?_, fun j r' hj hr' hr => ?_⟩
  · rw [record?_modifyRecord] at hr'
    split at hr'
    · obtain ⟨r, hrec, hfr⟩ := Option.map_eq_some_iff.1 hr'
      have hgr := hgrows r
      rw [hfr] at hgr
      cases hgr with
      | items _ _ _ hc => exact hc (h.completed j _ hj hrec)
    · exact h.completed j r' hj hr'
  · rw [record?_modifyRecord] at hr'
    split at hr'
    · rename_i heq
      subst heq
      obtain ⟨r, hrec, rfl⟩ := Option.map_eq_some_iff.1 hr'
      exact h.ready id r hj hrec (hready r hrec hj hr)
    · exact h.ready j r' hj hr' hr

/-- What is pending stays in order if a record is changed and then released. -/
theorem Prompt.settle (h : p.Prompt) (hgrows : ∀ r, Record.Grows n r (f r))
    (hcompleted : ∀ r r', p.record? id = some r → f r = .items r' → r'.completed = true) :
    ((p.modifyRecord id f).release id).Prompt := by
  have hg : Grows n p ((p.modifyRecord id f).release id) := (Grows.modifyRecord p id hgrows).trans (Grows.release _ id)
  have hrec : ∀ j, ((p.modifyRecord id f).release id).record? j = (p.modifyRecord id f).record? j := by
    intro j
    unfold release
    split <;> rfl
  have hpending : ((p.modifyRecord id f).release id).pending = p.pending := by
    unfold release
    split <;> rfl
  have hreleased : ∀ j, j ∈ ((p.modifyRecord id f).release id).released ↔
      j ∈ p.released ∨ j = id ∧ id ∈ p.pending := by
    intro j
    unfold release
    split
    · rename_i hid
      rw [pending_modifyRecord] at hid
      simp [mem_addNew, hid]
    · rename_i hid
      rw [pending_modifyRecord] at hid
      simp [hid]
  refine ⟨by rw [hpending]; exact h.nodup, ?_, fun j hj => ?_, fun j hj => ?_, fun j r' hj hr' => ?_,
    fun j r' hj hr' hr => ?_⟩
  · unfold release
    split
    · exact nodup_addNew h.releasedNodup
    · exact h.releasedNodup
  · rw [hpending] at hj
    exact hg.isDeliverable (h.deliverable j hj)
  · rw [hpending]
    rcases (hreleased j).1 hj with hj | ⟨rfl, hid⟩
    · exact h.released j hj
    · exact hid
  · rw [hrec, record?_modifyRecord] at hr'
    by_cases hid : id = j
    · rw [if_pos hid] at hr'
      obtain ⟨r, hr, hfr⟩ := Option.map_eq_some_iff.1 hr'
      exact hcompleted r r' (by rw [hid]; exact hr) hfr
    · rw [if_neg hid] at hr'
      rcases (hreleased j).1 hj with hj | ⟨rfl, -⟩
      · exact h.completed j r' hj hr'
      · exact absurd rfl hid
  · rw [hpending] at hj
    rw [hrec, record?_modifyRecord] at hr'
    by_cases hid : id = j
    · exact (hreleased j).2 (Or.inr ⟨hid.symm, by rw [hid]; exact hj⟩)
    · rw [if_neg hid] at hr'
      exact (hreleased j).2 (Or.inl (h.ready j r' hj hr' hr))

/-! ### New records -/

theorem Linked.push (h : p.Linked) {record : Record} (hchildren : record.children = [])
    (hunfinished : record.unfinished = [])
    (hfragments : ∀ r, record = .fieldSet r → ∀ f ∈ r.fragments, p.IsFragment f)
    (hstream : ∀ r, record = .items r → ∃ s, p.stream? r.stream = some s) : (p.push record).1.Linked := by
  have hg : Grows 0 p (p.push record).1 := Grows.push p record
  have hold : ∀ j r, (p.push record).1.record? j = some r →
      j = ⟨p.records.size⟩ ∧ r = record ∨ p.record? j = some r := by
    intro j r hr
    rw [record?_push] at hr
    split at hr
    · rename_i hj
      exact Or.inl ⟨hj, (Option.some.inj hr).symm⟩
    · exact Or.inr hr
  refine ⟨fun j r hr child hchild => ?_, fun j r hr fragment hf => ?_, fun j r hr set hset => ?_, fun j r hr => ?_⟩
  · rcases hold j r hr with ⟨-, rfl⟩ | hr
    · rw [hchildren] at hchild
      exact absurd hchild (by simp)
    · obtain ⟨hlt, hd⟩ := h.children j r hr child hchild
      exact ⟨hlt, hg.isDeliverable hd⟩
  · rcases hold j _ hr with ⟨rfl, heq⟩ | hr
    · obtain ⟨fr, hfr⟩ := hfragments r heq.symm fragment hf
      exact ⟨lt_size_of_record? hfr, hg.isFragment ⟨fr, hfr⟩⟩
    · obtain ⟨hlt, hd⟩ := h.fragments j r hr fragment hf
      exact ⟨hlt, hg.isFragment hd⟩
  · rcases hold j r hr with ⟨-, rfl⟩ | hr
    · rw [hunfinished] at hset
      exact absurd hset (by simp)
    · exact hg.belongsTo (h.unfinished j r hr set hset)
  · rcases hold j _ hr with ⟨-, heq⟩ | hr
    · exact hstream r heq.symm
    · exact h.streams j r hr

theorem Prompt.push (h : p.Prompt) (record : Record) : (p.push record).1.Prompt := by
  have hg : Grows 0 p (p.push record).1 := Grows.push p record
  have hold : ∀ j r, j ∈ p.pending → (p.push record).1.record? j = some r → p.record? j = some r := by
    intro j r hj hr
    obtain ⟨r', hr', -⟩ := h.deliverable j hj
    have hne : j ≠ ⟨p.records.size⟩ := by
      rintro rfl
      exact Nat.lt_irrefl _ (lt_size_of_record? hr')
    rw [record?_push, if_neg hne] at hr
    exact hr
  exact ⟨h.nodup, h.releasedNodup, fun j hj => hg.isDeliverable (h.deliverable j hj), h.released,
    fun j r hj hr => h.completed j r hj (hold j _ (h.released j hj) hr),
    fun j r hj hr hready => h.ready j r hj (hold j r hj hr) hready⟩

/-! ### Operations -/

/-- Records refer to others in the right way, and what is pending is in order. -/
structure Sound (p : Publisher ω) : Prop where
  linked : p.Linked
  prompt : p.Prompt

theorem Linked.release (h : p.Linked) (id : RecordId) : (p.release id).Linked := by
  unfold Publisher.release
  split
  · exact ⟨h.children, h.fragments, h.unfinished, h.streams⟩
  · exact h

/-- A change of a record that keeps what it refers to and does not make it ready. -/
theorem Sound.modify (h : p.Sound) (hgrows : ∀ r, Record.Grows n r (f r)) (hchildren : ∀ r, (f r).children = r.children)
    (hunfinished : ∀ r, (f r).unfinished ⊆ r.unfinished) (hready : ∀ r, p.record? id = some r → (f r).Ready → r.Ready) :
    (p.modifyRecord id f).Sound where
  linked := h.linked.modifyRecord hgrows (fun r _ child hchild => Or.inl (by rw [hchildren] at hchild; exact hchild))
    fun r _ set hset => Or.inl (hunfinished r hset)
  prompt := h.prompt.modifyRecord hgrows fun r hr _ => hready r hr

/-- A change of a record that keeps what it refers to and after which it is released. -/
theorem Sound.settle (h : p.Sound) (hgrows : ∀ r, Record.Grows n r (f r)) (hchildren : ∀ r, (f r).children = r.children)
    (hunfinished : ∀ r, (f r).unfinished ⊆ r.unfinished)
    (hcompleted : ∀ r r', f r = .items r' → r'.completed = true) : ((p.modifyRecord id f).release id).Sound where
  linked := Linked.release (h.linked.modifyRecord hgrows
    (fun r _ child hchild => Or.inl (by rw [hchildren] at hchild; exact hchild))
    fun r _ set hset => Or.inl (hunfinished r hset)) id
  prompt := h.prompt.settle hgrows fun r r' _ => hcompleted r r'

theorem Sound.modifyStreams (h : p.Sound) (stream : StreamId) (g : StreamRecord → StreamRecord) :
    Sound { p with streams := p.streams.modify stream.index g } where
  linked := by
    refine ⟨h.linked.children, h.linked.fragments, h.linked.unfinished, fun id r hr => ?_⟩
    obtain ⟨s, hs⟩ := h.linked.streams id r hr
    have hlt : r.stream.index < p.streams.size := by
      by_contra hge
      rw [stream?, Array.getElem?_eq_none (by omega)] at hs
      exact absurd hs (by simp)
    exact ⟨_, Array.getElem?_eq_getElem (by rw [Array.size_modify]; exact hlt)⟩
  prompt := ⟨h.prompt.nodup, h.prompt.releasedNodup, h.prompt.deliverable, h.prompt.released, h.prompt.completed,
    h.prompt.ready⟩

theorem Sound.addError (h : p.Sound) (hid : ¬ p.IsFragment id) (e : Error) : (p.addError id e).Sound := by
  refine Sound.modify (n := 0) h (Record.Grows.addError e) (fun r => ?_) (fun r => ?_) fun r hr hready => ?_
  · cases r <;> rfl
  · cases r <;> exact List.Subset.refl _
  · cases r
    case fragment r => exact absurd ⟨r, hr⟩ hid
    all_goals exact hready

theorem Sound.filter (h : p.Sound) (path : Path) (id : RecordId) : (p.filter path id).1.Sound := by
  refine List.foldlRecOn (motive := Sound) _ _ h fun q hq id _ => ?_
  refine Sound.modify (n := 0) hq Record.Grows.setFiltered (fun r => ?_) (fun r => ?_) fun r _ hready => ?_
  · cases r <;> rfl
  · cases r <;> exact List.Subset.refl _
  · cases r <;> exact hready

theorem Sound.modifyItems (h : p.Sound) {g : ItemsRecord → ItemsRecord}
    (hgrows : ∀ r, Record.Grows n (.items r) (.items (g r))) (hchildren : ∀ r, (g r).children = r.children)
    (hcompleted : ∀ r, (g r).completed = r.completed) : (p.modifyItems id g).Sound := by
  refine Sound.modify (n := n) h (fun r => ?_) (fun r => ?_) (fun r => ?_) fun r hr hready => ?_
  · cases r
    case items r => exact hgrows r
    all_goals exact Record.Grows.refl _
  · cases r
    case items r => exact hchildren r
    all_goals rfl
  · cases r <;> exact List.Subset.refl _
  · cases r
    case items r => exact (hcompleted r).symm.trans hready
    all_goals exact hready

theorem Sound.settleItems (h : p.Sound) {g : ItemsRecord → ItemsRecord}
    (hgrows : ∀ r, Record.Grows n (.items r) (.items (g r))) (hchildren : ∀ r, (g r).children = r.children)
    (hcompleted : ∀ r, (g r).completed = true) : ((p.modifyItems id g).release id).Sound := by
  refine Sound.settle (n := n) h (fun r => ?_) (fun r => ?_) (fun r => ?_) fun r r' heq => ?_
  · cases r
    case items r => exact hgrows r
    all_goals exact Record.Grows.refl _
  · cases r
    case items r => exact hchildren r
    all_goals rfl
  · cases r <;> exact List.Subset.refl _
  · cases r
    case items r => cases heq; exact hcompleted r
    all_goals exact absurd heq (by simp)

theorem Sound.setFinal (h : p.Sound) (id : RecordId) : (p.setFinal id).Sound :=
  Sound.modifyItems (n := 0) h (fun _ => .items rfl rfl (.refl _) (fun h => h) (fun _ => rfl) fun h => h)
    (fun _ => rfl) fun _ => rfl

theorem Sound.setEnd (h : p.Sound) (id : RecordId) : (p.setEnd id).Sound :=
  Sound.modifyItems (n := 0) h (fun _ => .items rfl rfl (.refl _) (fun h => h) (fun _ => rfl) fun h => h)
    (fun _ => rfl) fun _ => rfl

theorem Sound.completeItems (h : p.Sound) (id : RecordId) (items : List Json) : (p.completeItems id items).Sound :=
  Sound.settleItems (n := 0) h (fun _ => .items rfl rfl (.refl _) (fun _ => rfl) (fun h => h) fun h => h)
    (fun _ => rfl) fun _ => rfl

theorem Sound.retireItems (h : p.Sound) (id : RecordId) : (p.retireItems id).Sound :=
  Sound.settleItems (n := 0) h (fun _ => .items rfl rfl (.refl _) (fun _ => rfl) (fun h => h) fun h => h)
    (fun _ => rfl) fun _ => rfl

theorem Sound.failItems (h : p.Sound) (id : RecordId) (e : Error) : (p.failItems id e).1.Sound := by
  unfold Publisher.failItems
  split
  · rename_i r _
    exact Sound.settleItems (n := 0) (h.modifyStreams r.stream fun s => { s with errors := s.errors ++ [e] })
      (g := fun r => { r with final := true, completed := true })
      (fun _ => .items rfl rfl (.refl _) (fun _ => rfl) (fun _ => rfl) fun h => h) (fun _ => rfl) fun _ => rfl
  · exact h

/-! ### Operations on new records -/

theorem Sound.push (h : p.Sound) {record : Record} (hchildren : record.children = [])
    (hunfinished : record.unfinished = [])
    (hfragments : ∀ r, record = .fieldSet r → ∀ f ∈ r.fragments, p.IsFragment f)
    (hstream : ∀ r, record = .items r → ∃ s, p.stream? r.stream = some s) : (p.push record).1.Sound :=
  ⟨h.linked.push hchildren hunfinished hfragments hstream, h.prompt.push record⟩

theorem Sound.addChild (h : p.Sound) {parent child : RecordId} (hchild : p.IsDeliverable child)
    (hparents : ∀ id ∈ p.attachedTo parent, id.index < child.index) : (p.addChild parent child).Sound := by
  have hall : (p.addChild parent child).Sound ∧ Grows 0 p (p.addChild parent child) := by
    refine List.foldlRecOn (motive := fun q => q.Sound ∧ Grows 0 p q) _ _ ⟨h, Grows.refl p⟩ ?_
    rintro q ⟨hq, hg⟩ id hid
    refine ⟨⟨?_, ?_⟩, hg.trans (Grows.modifyRecord q id (Record.Grows.addChild (Nat.zero_le _)))⟩
    · refine Linked.modifyRecord (n := 0) hq.linked (Record.Grows.addChild (Nat.zero_le _)) (fun r _ c hc => ?_)
        fun r _ set hset => ?_
      · rcases (Record.Grows.addChild (Nat.le_refl _) r).children.new c hc with hc' | hle
        · exact Or.inl hc'
        · have hc' : c ∈ r.children ∨ c = child := by
            cases r
            case fieldSet r => exact absurd hc (by simp [Record.addChild, Record.children])
            all_goals exact mem_addNew.1 hc
          rcases hc' with hc' | rfl
          · exact Or.inl hc'
          · exact Or.inr ⟨hparents id hid, hg.isDeliverable hchild⟩
      · left
        cases r <;> exact hset
    · refine Prompt.modifyRecord (n := 0) hq.prompt (Record.Grows.addChild (Nat.zero_le _)) fun r _ _ hready => ?_
      cases r <;> exact hready
  exact hall.1

/-- The records that something is attached to are there. -/
theorem Linked.lt_size_of_mem_attachedTo (h : p.Linked) {parent : RecordId} (hparent : parent.index < p.records.size)
    (hid : id ∈ p.attachedTo parent) : id.index < p.records.size := by
  unfold attachedTo at hid
  split at hid
  · rename_i r hr
    exact Nat.lt_trans (h.fragments parent r hr id hid).1 hparent
  · rw [List.mem_singleton.1 hid]
    exact hparent

theorem Sound.push_addChild (h : p.Sound) (record : Record) {parent : RecordId} (hchildren : record.children = [])
    (hunfinished : record.unfinished = []) (hdeliverable : record.IsDeliverable)
    (hstream : ∀ r, record = .items r → ∃ s, p.stream? r.stream = some s)
    (hparent : parent.index < p.records.size) : ((p.push record).1.addChild parent ⟨p.records.size⟩).Sound := by
  refine Sound.addChild (h.push hchildren hunfinished (fun r hr => ?_) hstream) ?_ fun id hid => ?_
  · rw [hr] at hdeliverable
    exact hdeliverable.elim
  · exact ⟨record, by rw [record?_push, if_pos rfl], hdeliverable⟩
  · rw [attachedTo_push hparent] at hid
    exact h.linked.lt_size_of_mem_attachedTo hparent hid

theorem Sound.addFragment (h : p.Sound) (path : Path) (label : Option String) {parent : RecordId}
    (hparent : parent.index < p.records.size) : (p.addFragment path label parent).1.Sound :=
  h.push_addChild (.fragment { path := path, label := label }) rfl rfl trivial
    (fun _ heq => absurd heq (by simp)) hparent

theorem Sound.addItems (h : p.Sound) {stream : StreamId} (hstream : ∃ s, p.stream? stream = some s) (path : Path)
    {parent : RecordId} (hparent : parent.index < p.records.size) : (p.addItems stream path parent).1.Sound := by
  refine h.push_addChild (.items { stream := stream, path := path }) rfl rfl trivial (fun r heq => ?_) hparent
  cases heq
  exact hstream

theorem Sound.addStream (h : p.Sound) (path : Path) (label : Option String) (hook : Option HookId) :
    (p.addStream path label hook).1.Sound where
  linked := by
    refine ⟨h.linked.children, h.linked.fragments, h.linked.unfinished, fun id r hr => ?_⟩
    obtain ⟨s, hs⟩ := h.linked.streams id r hr
    obtain ⟨s', hs', -⟩ := (Grows.addStream (n := 0) p path label hook).streams _ s hs
    exact ⟨s', hs'⟩
  prompt := ⟨h.prompt.nodup, h.prompt.releasedNodup, h.prompt.deliverable, h.prompt.released, h.prompt.completed,
    h.prompt.ready⟩

theorem Sound.addFieldSet (h : p.Sound) (path : Path) {fragments : List RecordId}
    (hfragments : ∀ f ∈ fragments, p.IsFragment f) : (p.addFieldSet path fragments).1.Sound := by
  have hpush : (p.push (.fieldSet { path := path, fragments := fragments })).1.Sound := by
    refine h.push rfl rfl (fun r heq => ?_) fun r heq => absurd heq (by simp)
    cases heq
    exact hfragments
  have hnew : ∀ f ∈ fragments, (p.push (.fieldSet { path := path, fragments := fragments })).1.BelongsTo
      ⟨p.records.size⟩ f := fun f hf => ⟨_, by rw [record?_push, if_pos rfl], hf⟩
  have hall : (p.addFieldSet path fragments).1.Sound ∧
      Grows 0 (p.push (.fieldSet { path := path, fragments := fragments })).1 (p.addFieldSet path fragments).1 := by
    refine List.foldlRecOn (motive := fun q => q.Sound ∧
      Grows 0 (p.push (.fieldSet { path := path, fragments := fragments })).1 q) fragments _ ⟨hpush, Grows.refl _⟩ ?_
    rintro q ⟨hq, hg⟩ id hid
    have hstep : ∀ r, Record.Grows 0 (.fragment r) (.fragment { r with
        unfinished := addNew r.unfinished ⟨p.records.size⟩, fieldSets := addNew r.fieldSets ⟨p.records.size⟩ }) :=
      fun r => .fragment rfl rfl (.refl _) (.addNew (Nat.zero_le _)) (fun _ _ => Or.inr (Nat.zero_le _))
        (List.Subset.refl _) fun h => h
    refine ⟨⟨?_, ?_⟩, hg.trans (Grows.modifyFragment q id hstep)⟩
    · refine Linked.modifyRecord (n := 0) hq.linked (fun r => ?_) (fun r _ child hchild => ?_) fun r _ set hset => ?_
      · cases r
        case fragment r => exact hstep r
        all_goals exact Record.Grows.refl _
      · left
        cases r <;> exact hchild
      · cases r
        case fragment r =>
          rcases mem_addNew.1 hset with hset | rfl
          · exact Or.inl hset
          · exact Or.inr (hg.belongsTo (hnew id hid))
        all_goals exact Or.inl hset
    · refine Prompt.modifyRecord (n := 0) hq.prompt (fun r => ?_) fun r hr _ hready => ?_
      · cases r
        case fragment r => exact hstep r
        all_goals exact Record.Grows.refl _
      · cases r
        case fragment r =>
          rcases hready with hnil | herrors
          · have hmem : (⟨p.records.size⟩ : RecordId) ∈ addNew r.unfinished ⟨p.records.size⟩ :=
              mem_addNew.2 (Or.inr rfl)
            rw [show addNew r.unfinished ⟨p.records.size⟩ = [] from hnil] at hmem
            exact absurd hmem (by simp)
          · exact Or.inr herrors
        all_goals exact hready
  exact hall.1

/-! ### Operations on field sets -/

theorem modifyRecord_modifyRecord (p : Publisher ω) (id : RecordId) (f g : Record → Record) :
    (p.modifyRecord id f).modifyRecord id g = p.modifyRecord id (g ∘ f) := by
  have h : (p.records.modify id.index f).modify id.index g = p.records.modify id.index (g ∘ f) := by
    refine Array.ext (by simp) fun i hi hi' => ?_
    simp only [Array.getElem_modify]
    split <;> rfl
  show { p with records := (p.records.modify id.index f).modify id.index g } = _
  rw [h]
  rfl

private theorem grows_finish (n : Nat) (set : RecordId) (r : FragmentRecord) : Record.Grows n (.fragment r)
    (.fragment { r with unfinished := r.unfinished.filter (· ≠ set) }) :=
  .fragment rfl rfl (.refl _) (.refl _) (fun _ hset => Or.inl (List.mem_of_mem_filter hset)) (List.Subset.refl _)
    fun h => h

theorem Sound.modifyFragment (h : p.Sound) {g : FragmentRecord → FragmentRecord}
    (hgrows : ∀ r, Record.Grows n (.fragment r) (.fragment (g r))) (hchildren : ∀ r, (g r).children = r.children)
    (hunfinished : ∀ r, (g r).unfinished ⊆ r.unfinished)
    (hready : ∀ r, p.record? id = some (.fragment r) → (Record.fragment (g r)).Ready → (Record.fragment r).Ready) :
    (p.modifyFragment id g).Sound := by
  refine Sound.modify (n := n) h (fun r => ?_) (fun r => ?_) (fun r => ?_) fun r hr hr' => ?_
  · cases r
    case fragment r => exact hgrows r
    all_goals exact Record.Grows.refl _
  · cases r
    case fragment r => exact hchildren r
    all_goals rfl
  · cases r
    case fragment r => exact hunfinished r
    all_goals exact List.Subset.refl _
  · cases r
    case fragment r => exact hready r hr hr'
    all_goals exact hr'

theorem Sound.settleFragment (h : p.Sound) {g : FragmentRecord → FragmentRecord}
    (hgrows : ∀ r, Record.Grows n (.fragment r) (.fragment (g r))) (hchildren : ∀ r, (g r).children = r.children)
    (hunfinished : ∀ r, (g r).unfinished ⊆ r.unfinished) (hid : p.IsFragment id) :
    ((p.modifyFragment id g).release id).Sound := by
  have hgrows' : ∀ r, Record.Grows n r (match r with
      | .fragment r => .fragment (g r)
      | r => r) := by
    intro r
    cases r
    case fragment r => exact hgrows r
    all_goals exact Record.Grows.refl _
  obtain ⟨fr, hfr⟩ := hid
  refine ⟨Linked.release (Linked.modifyRecord (n := n) h.linked hgrows' (fun r hr child hchild => ?_)
    fun r hr set hset => ?_) id, Prompt.settle (n := n) h.prompt hgrows' fun r r' hr heq => ?_⟩
  · left
    cases r
    case fragment r =>
      show child ∈ r.children
      rw [← hchildren r]
      exact hchild
    all_goals exact hchild
  · left
    cases r
    case fragment r => exact hunfinished r hset
    all_goals exact hset
  · rw [hfr] at hr
    cases hr
    exact absurd heq (by simp)

theorem Sound.completeFieldSet (h : p.Sound) (id : RecordId) (data : Json) : (p.completeFieldSet id data).Sound := by
  refine List.foldlRecOn (motive := Sound) _ _ ?_ fun q hq fragment _ => ?_
  · refine Sound.modify (n := 0) h (fun r => ?_) (fun r => ?_) (fun r => ?_) fun r _ hready => ?_
    · cases r
      case fieldSet r => exact .fieldSet rfl rfl fun h => h
      all_goals exact Record.Grows.refl _
    · cases r <;> rfl
    · cases r <;> exact List.Subset.refl _
    · cases r <;> exact hready
  dsimp only
  split
  · rename_i r hr
    split
    · refine hq.settleFragment (grows_finish 0 id) (fun _ => rfl) (fun _ => List.filter_sublist.subset) ?_
      rw [Publisher.finishFieldSet, Publisher.modifyFragment, record?_modifyRecord, if_pos rfl] at hr
      obtain ⟨r', hr', heq⟩ := Option.map_eq_some_iff.1 hr
      cases r'
      case fragment r' => exact ⟨r', hr'⟩
      all_goals exact absurd heq (by simp)
    · rename_i hne
      refine hq.modifyFragment (grows_finish 0 id) (fun _ => rfl) (fun _ => List.filter_sublist.subset)
        fun r' hr' hready => ?_
      rw [Publisher.finishFieldSet, Publisher.modifyFragment, record?_modifyRecord, if_pos rfl, hr'] at hr
      cases hr
      rcases hready with hnil | herrors
      · exact absurd (List.isEmpty_iff.2 hnil) hne
      · exact Or.inr herrors
  · rename_i hnone
    refine hq.modifyFragment (grows_finish 0 id) (fun _ => rfl) (fun _ => List.filter_sublist.subset) fun r' hr' _ => ?_
    refine absurd ?_ (hnone { r' with unfinished := r'.unfinished.filter (· ≠ id) })
    rw [Publisher.finishFieldSet, Publisher.modifyFragment, record?_modifyRecord, if_pos rfl, hr']
    rfl

theorem Sound.failFieldSet (h : p.Sound) (id : RecordId) (e : Error) : (p.failFieldSet id e).Sound := by
  have hfragments : ∀ f ∈ p.fragmentsOf id, p.IsFragment f := by
    intro f hf
    unfold fragmentsOf at hf
    split at hf
    · rename_i r hr
      exact (h.linked.fragments id r hr f hf).2
    · exact absurd hf (by simp)
  have hall : (p.failFieldSet id e).Sound ∧ Grows 0 p (p.failFieldSet id e) := by
    refine List.foldlRecOn (motive := fun q => q.Sound ∧ Grows 0 p q) _ _ ⟨h, Grows.refl p⟩ ?_
    rintro q ⟨hq, hg⟩ fragment hfragment
    have hstep : ((q.finishFieldSet id fragment).modifyFragment fragment fun r =>
        { r with errors := r.errors ++ [e] }) = q.modifyFragment fragment fun r =>
        { r with unfinished := r.unfinished.filter (· ≠ id), errors := r.errors ++ [e] } := by
      unfold Publisher.finishFieldSet Publisher.modifyFragment
      rw [modifyRecord_modifyRecord]
      congr 1
      funext r
      cases r <;> rfl
    have hgrows : ∀ r, Record.Grows 0 (.fragment r)
        (.fragment { r with unfinished := r.unfinished.filter (· ≠ id), errors := r.errors ++ [e] }) := fun r =>
      .fragment rfl rfl (.refl _) (.refl _) (fun _ hset => Or.inl (List.mem_of_mem_filter hset))
        (List.subset_append_left _ _) fun h => h
    dsimp only
    rw [hstep]
    exact ⟨hq.settleFragment hgrows (fun _ => rfl) (fun _ => List.filter_sublist.subset)
      (hg.isFragment (hfragments fragment hfragment)),
      hg.trans ((Grows.modifyFragment q fragment hgrows).trans (Grows.release _ fragment))⟩
  exact hall.1

end Publisher

end GraphQL
