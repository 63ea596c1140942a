import GraphQL.Proofs.Delivery.Below
import GraphQL.Proofs.Delivery.Results
import GraphQL.Proofs.Execution.Soundness

/-!
# Which records follow which

Each record of a stream but the first has the record before it as its only parent, and once a record is final, those
after it are filtered (`Publisher.Ordered`).  Nothing is added after a final record, and when items fail, all records
after theirs are found and filtered.  A record has several parents only if it was reported for a set of fields that
belongs to several fragments, which are its parents then.
-/

namespace GraphQL

namespace Publisher

variable {p q : Publisher Task}

/-- The record stands for items of the stream. -/
def OfStream (p : Publisher Task) (stream : StreamId) (id : RecordId) : Prop :=
  ∃ r, p.record? id = some (.items r) ∧ r.stream = stream

/-- The records of each stream come one after the other, and records with several parents come after fragments that share
a set of fields. -/
structure Ordered (p : Publisher Task) : Prop where
  shared : ∀ a b child, child.index < p.records.size → child ∈ p.kids a → child ∈ p.kids b → a ≠ b →
    ∃ set, p.BelongsTo set a ∧ p.BelongsTo set b
  parent : ∀ stream a b, p.OfStream stream a → p.OfStream stream b → a.index < b.index →
    ∀ id, b ∈ p.kids id → p.OfStream stream id ∧ a.index ≤ id.index
  final : ∀ a b r r', p.record? a = some (.items r) → r.final = true → p.record? b = some (.items r') →
    r'.stream = r.stream → a.index < b.index → r'.filtered = true
  path : ∀ id r, p.record? id = some (.items r) → p.ItemPath r.stream r.path
  below : ∀ stream a b, p.OfStream stream a → p.OfStream stream b → a.index < b.index → p.Below a b

theorem mem_kids {id child : RecordId} : child ∈ p.kids id ↔ ∃ r, p.record? id = some r ∧ child ∈ r.children := by
  unfold kids
  cases p.record? id <;> simp

theorem OfStream.lt_size {stream : StreamId} {id : RecordId} (h : p.OfStream stream id) :
    id.index < p.records.size := by
  obtain ⟨r, hr, -⟩ := h
  exact lt_size_of_record? hr

theorem Grows.kids {n : Nat} (h : Grows n p q) {id : RecordId} : p.kids id ⊆ q.kids id := by
  intro child hchild
  obtain ⟨r, hr, hmem⟩ := mem_kids.1 hchild
  obtain ⟨r', hr', hg⟩ := h.records id r hr
  exact mem_kids.2 ⟨r', hr', hg.children.subset hmem⟩

theorem Grows.below {n : Nat} (h : Grows n p q) {a b : RecordId} (hb : p.Below a b) : q.Below a b := by
  induction hb with
  | self => exact .self
  | child _ hchild ih => exact ih.child (h.kids hchild)

theorem Grows.itemPath {n : Nat} (h : Grows n p q) {stream : StreamId} {path : Path} (hp : p.ItemPath stream path) :
    q.ItemPath stream path := by
  obtain ⟨s, hs, i, rfl⟩ := hp
  obtain ⟨s', hs', hpath, -⟩ := h.streams stream s hs
  exact ⟨s', hs', i, by rw [hpath]⟩

theorem Alike.kids (h : p.Alike q) (id : RecordId) : q.kids id = p.kids id := by
  have hmap : ∀ o : Option Record, (o.map Record.children).getD [] =
      ((o.map Record.outline).map Record.children).getD [] := by
    intro o
    cases o <;> simp
  unfold Publisher.kids
  rw [hmap, h.records id, ← hmap]

/-- Old records have no new parents. -/
theorem Grows.old_kids {n : Nat} (h : Grows n p q) {id child : RecordId} (hchild : child ∈ q.kids id)
    (hid : id.index < p.records.size) (hlt : child.index < n) : child ∈ p.kids id := by
  obtain ⟨r', hr', hmem⟩ := mem_kids.1 hchild
  obtain ⟨r, hr, hg⟩ := h.old hr' hid
  rcases hg.children.new child hmem with hmem | hge
  · exact mem_kids.2 ⟨r, hr, hmem⟩
  · exact absurd hlt (Nat.not_lt.2 hge)

/-- A new record that is attached to others is a child of these. -/
theorem mem_kids_push_addChild (h : p.Linked) {parent : RecordId} (hparent : parent.index < p.records.size)
    (record : Record) (hchildren : record.children = []) (id : RecordId) :
    ⟨p.records.size⟩ ∈ ((p.push record).1.addChild parent ⟨p.records.size⟩).kids id ↔ id ∈ p.attachedTo parent := by
  rw [mem_kids]
  simp only [record?_push_addChild hparent, record?_push]
  constructor
  · rintro ⟨r', hr', hmem⟩
    by_contra hnot
    rw [if_neg hnot] at hr'
    split at hr'
    · cases hr'
      rw [hchildren] at hmem
      exact absurd hmem (by simp)
    · obtain ⟨r₀, hr₀, -⟩ := (h.children id r' hr' _ hmem).2
      exact Nat.lt_irrefl _ (lt_size_of_record? hr₀)
  · intro hid
    have hlt := h.lt_size_of_mem_attachedTo hparent hid
    obtain ⟨r, hr⟩ := exists_record? hlt
    have hne : id ≠ ⟨p.records.size⟩ := fun heq => by rw [heq] at hlt; exact Nat.lt_irrefl _ hlt
    refine ⟨r.addChild ⟨p.records.size⟩, by rw [if_pos hid, if_neg hne, hr]; rfl, ?_⟩
    have hnot : ∀ set, r ≠ .fieldSet set := by
      rintro set rfl
      unfold attachedTo at hid
      split at hid
      · rename_i owner howner
        obtain ⟨fr, hfr⟩ := (h.fragments parent owner howner id hid).2
        rw [hr] at hfr
        exact absurd hfr (by simp)
      · rename_i hother
        rw [List.mem_singleton.1 hid] at hr
        exact hother _ hr
    cases r with
    | fieldSet set => exact absurd rfl (hnot set)
    | _ => exact mem_addNew.2 (Or.inr rfl)

/-- Something that is attached to several records is attached to the fragments of a set of fields. -/
theorem belongsTo_of_attachedTo {parent a b : RecordId} (ha : a ∈ p.attachedTo parent) (hb : b ∈ p.attachedTo parent)
    (hne : a ≠ b) : ∃ set, p.BelongsTo set a ∧ p.BelongsTo set b := by
  by_cases hset : ∃ r, p.record? parent = some (.fieldSet r)
  · obtain ⟨r, hr⟩ := hset
    rw [attachedTo, hr] at ha hb
    exact ⟨parent, ⟨r, hr, ha⟩, r, hr, hb⟩
  · have hsingle : p.attachedTo parent = [parent] := by
      unfold attachedTo
      split
      · exact absurd ⟨_, ‹_›⟩ hset
      · rfl
    rw [hsingle] at ha hb
    exact absurd ((List.mem_singleton.1 ha).trans (List.mem_singleton.1 hb).symm) hne

namespace Ordered

/-- Records that are there are changed; what becomes final is the last of its stream, or those after it are filtered. -/
theorem update (h : p.Ordered) {F : RecordId → Prop} (hg : Grows p.records.size p q)
    (hsize : q.records.size = p.records.size)
    (hitems : ∀ id r', q.record? id = some (.items r') → ∃ r, p.record? id = some (.items r) ∧ r'.stream = r.stream ∧
      (r'.final = true → r.final = true ∨ F id))
    (hfinal : ∀ a r, F a → q.record? a = some (.items r) → ∀ b r', q.record? b = some (.items r') →
      r'.stream = r.stream → a.index < b.index → r'.filtered = true) : q.Ordered := by
  have hold : ∀ {stream id}, q.OfStream stream id → p.OfStream stream id := by
    rintro stream id ⟨r', hr', hs'⟩
    obtain ⟨r, hr, hs, -⟩ := hitems id r' hr'
    exact ⟨r, hr, hs.symm.trans hs'⟩
  have hnew : ∀ {stream id}, p.OfStream stream id → q.OfStream stream id := by
    rintro stream id ⟨r, hr, hs⟩
    obtain ⟨r', hr', hgr⟩ := hg.records id _ hr
    cases hgr with
    | items hs' => exact ⟨_, hr', hs'.trans hs⟩
  have hlt_size : ∀ {id child}, child ∈ q.kids id → id.index < p.records.size := by
    intro id child hchild
    obtain ⟨r, hr, -⟩ := mem_kids.1 hchild
    rw [← hsize]
    exact lt_size_of_record? hr
  refine ⟨fun a b child hlt ha hb hne => ?_, fun stream a b ha hb hlt id hid => ?_,
    fun a b r r' hr hf hr' hs hlt => ?_, fun id r' hr' => ?_,
    fun stream a b ha hb hlt => hg.below (h.below stream a b (hold ha) (hold hb) hlt)⟩
  · rw [hsize] at hlt
    obtain ⟨set, hset, hset'⟩ := h.shared a b child hlt (hg.old_kids ha (hlt_size ha) hlt)
      (hg.old_kids hb (hlt_size hb) hlt) hne
    exact ⟨set, hg.belongsTo hset, hg.belongsTo hset'⟩
  · have hidlt := hlt_size hid
    obtain ⟨hparent, hle⟩ := h.parent stream a b (hold ha) (hold hb) hlt id
      (hg.old_kids hid hidlt (hold hb).lt_size)
    exact ⟨hnew hparent, hle⟩
  · obtain ⟨r₀, hr₀, hs₀, hf₀⟩ := hitems a r hr
    obtain ⟨r₁, hr₁, hs₁, -⟩ := hitems b r' hr'
    rcases hf₀ hf with hf₀ | hFa
    · have hfiltered := h.final a b r₀ r₁ hr₀ hf₀ hr₁ (hs₁.symm.trans (hs.trans hs₀)) hlt
      obtain ⟨r₂, hr₂, hgr⟩ := hg.records b _ hr₁
      rw [hr'] at hr₂
      cases hr₂
      cases hgr with
      | items _ _ _ _ _ hf => exact hf hfiltered
    · exact hfinal a r hFa hr b r' hr' hs hlt
  · obtain ⟨r, hr, hs, -⟩ := hitems id r' hr'
    obtain ⟨r₂, hr₂, hgr⟩ := hg.records id _ hr
    rw [hr'] at hr₂
    cases hr₂
    cases hgr with
    | items _ hpath =>
      rw [hs, hpath]
      exact hg.itemPath (h.path id r hr)

/-- Only records of one kind become final. -/
theorem of_updates (h : p.Ordered) {D F : RecordId → Prop} (hg : Grows p.records.size p q) (hu : p.Updates q D F)
    (hfinal : ∀ a r, F a → q.record? a = some (.items r) → ∀ b r', q.record? b = some (.items r') →
      r'.stream = r.stream → a.index < b.index → r'.filtered = true) : q.Ordered := by
  refine h.update hg hu.size (fun id r' hr' => ?_) hfinal
  obtain ⟨r, hr, hs, -, hf⟩ := hu.items id r' hr'
  exact ⟨r, hr, hs, hf⟩

/-- Nothing becomes final. -/
theorem of_open (h : p.Ordered) {D : RecordId → Prop} (hg : Grows p.records.size p q)
    (hu : p.Updates q D fun _ => False) : q.Ordered :=
  h.of_updates hg hu fun _ _ hF => hF.elim

theorem of_same (h : p.Ordered) (hsame : p.Same q) : q.Ordered :=
  h.update (F := fun _ => False) (hsame.grows _) (by rw [hsame.records])
    (fun id r hr => ⟨r, by rw [← hsame.record?]; exact hr, rfl, Or.inl⟩) fun _ _ hF => hF.elim

/-- A record is added; one of a stream comes after the last one of it, and one with several parents after fragments that
share a set of fields. -/
theorem add (h : p.Ordered) {record : Record} (hg : Grows p.records.size p q) (ha : p.Adds q record)
    (hshared : ∀ a b, ⟨p.records.size⟩ ∈ q.kids a → ⟨p.records.size⟩ ∈ q.kids b → a ≠ b →
      ∃ set, p.BelongsTo set a ∧ p.BelongsTo set b)
    (hnew : ∀ r, record = .items r → p.ItemPath r.stream r.path ∧ ∃ parent, parent.index < p.records.size ∧
      (∀ id, ⟨p.records.size⟩ ∈ q.kids id ↔ id ∈ p.attachedTo parent) ∧
      (p.Unused r.stream ∨ p.Tail r.stream parent)) (hchildren : record.children = []) : q.Ordered := by
  have hkids : q.kids ⟨p.records.size⟩ = [] := by
    unfold kids
    rw [ha.new, Option.map_some, hchildren]
    rfl
  have hcases : ∀ {stream id}, q.OfStream stream id →
      p.OfStream stream id ∨ id = ⟨p.records.size⟩ ∧ ∃ r, record = .items r ∧ r.stream = stream := by
    rintro stream id ⟨r', hr', hs'⟩
    rcases Nat.lt_or_ge id.index p.records.size with hlt | hge
    · obtain ⟨r, hr, hs, -⟩ := ha.items id r' hr' hlt
      exact Or.inl ⟨r, hr, hs.symm.trans hs'⟩
    · have hlt := lt_size_of_record? hr'
      rw [ha.size] at hlt
      obtain rfl : id = ⟨p.records.size⟩ := RecordId.index_inj.1 (show id.index = p.records.size by omega)
      rw [ha.new] at hr'
      cases hr'
      exact Or.inr ⟨rfl, r', rfl, hs'⟩
  have hold : ∀ {stream id}, p.OfStream stream id → q.OfStream stream id := by
    rintro stream id ⟨r, hr, hs⟩
    obtain ⟨r', hr', hgr⟩ := hg.records id _ hr
    cases hgr with
    | items hs' => exact ⟨_, hr', hs'.trans hs⟩
  -- what the parent of a new record of a stream with other records is
  have hlast : ∀ r, record = .items r → ∀ a, p.OfStream r.stream a → ∃ parent, p.OfStream r.stream parent ∧
      a.index ≤ parent.index ∧ (∀ id, ⟨p.records.size⟩ ∈ q.kids id ↔ id = parent) ∧
      ∀ other r₁, p.record? other = some (.items r₁) → r₁.stream = r.stream → r₁.final = false := by
    intro r hrecord a ⟨ra, hra, hsa⟩
    obtain ⟨-, parent, -, hparents, hunused | ⟨⟨rp, hrp, hsp, -⟩, htail⟩⟩ := hnew r hrecord
    · exact absurd hsa (hunused a ra hra)
    · refine ⟨parent, ⟨rp, hrp, hsp⟩, (htail a ra hra hsa).1, fun id => ?_, fun other r₁ hr₁ hs₁ =>
        (htail other r₁ hr₁ hs₁).2⟩
      rw [hparents id, attachedTo, hrp]
      exact List.mem_singleton
  have hlt_size : ∀ {id child}, child ∈ q.kids id → id.index < p.records.size := by
    intro id child hchild
    by_contra hge
    obtain ⟨r, hr, -⟩ := mem_kids.1 hchild
    have hlt := lt_size_of_record? hr
    rw [ha.size] at hlt
    obtain rfl : id = ⟨p.records.size⟩ := RecordId.index_inj.1 (show id.index = p.records.size by omega)
    rw [hkids] at hchild
    exact absurd hchild (by simp)
  refine ⟨fun a b child hlt hqa hqb hne => ?_, fun stream a b hqa hqb hlt id hid => ?_,
    fun a b r r' hr hf hr' hs hlt => ?_, fun id r' hr' => ?_, fun stream a b hqa hqb hlt => ?_⟩
  · rw [ha.size] at hlt
    rcases Nat.lt_or_ge child.index p.records.size with hlt' | hge
    · obtain ⟨set, hset, hset'⟩ := h.shared a b child hlt' (hg.old_kids hqa (hlt_size hqa) hlt')
        (hg.old_kids hqb (hlt_size hqb) hlt') hne
      exact ⟨set, hg.belongsTo hset, hg.belongsTo hset'⟩
    · obtain rfl : child = ⟨p.records.size⟩ := RecordId.index_inj.1 (show child.index = p.records.size by omega)
      obtain ⟨set, hset, hset'⟩ := hshared a b hqa hqb hne
      exact ⟨set, hg.belongsTo hset, hg.belongsTo hset'⟩
  · have hidlt := hlt_size hid
    rcases hcases hqb with hb | ⟨rfl, r, hrecord, rfl⟩
    · rcases hcases hqa with ha' | ⟨rfl, -⟩
      · obtain ⟨hparent, hle⟩ := h.parent stream a b ha' hb hlt id (hg.old_kids hid hidlt hb.lt_size)
        exact ⟨hold hparent, hle⟩
      · exact absurd hlt (Nat.not_lt.2 (Nat.le_of_lt hb.lt_size))
    · rcases hcases hqa with ha' | ⟨rfl, -⟩
      · obtain ⟨parent, hparent, hle, hiff, -⟩ := hlast r hrecord a ha'
        rw [(hiff id).1 hid]
        exact ⟨hold hparent, hle⟩
      · exact absurd hlt (Nat.lt_irrefl _)
  · rcases hcases ⟨r', hr', rfl⟩ with ⟨r₁, hr₁, hs₁⟩ | ⟨rfl, r₁, hrecord, hs₁⟩
    · have hblt := lt_size_of_record? hr₁
      obtain ⟨r₀, hr₀, hs₀, -, hf₀⟩ := ha.items a r hr (Nat.lt_trans hlt hblt)
      have hfiltered := h.final a b r₀ r₁ hr₀ (hf₀ ▸ hf) hr₁ (hs₁.trans (hs.trans hs₀)) hlt
      obtain ⟨r₂, hr₂, hgr⟩ := hg.records b _ hr₁
      rw [hr'] at hr₂
      cases hr₂
      cases hgr with
      | items _ _ _ _ _ hf => exact hf hfiltered
    · obtain ⟨r₀, hr₀, hs₀, -, hf₀⟩ := ha.items a r hr hlt
      have heq : r₀.stream = r₁.stream := hs₀.symm.trans (hs.symm.trans hs₁.symm)
      obtain ⟨-, -, -, -, hopen⟩ := hlast r₁ hrecord a ⟨r₀, hr₀, heq⟩
      have hfalse := hopen a r₀ hr₀ heq
      rw [← hf₀, hf] at hfalse
      exact absurd hfalse (by simp)
  · rcases Nat.lt_or_ge id.index p.records.size with hlt | hge
    · obtain ⟨r, hr, hs, -⟩ := ha.items id r' hr' hlt
      obtain ⟨r₂, hr₂, hgr⟩ := hg.records id _ hr
      rw [hr'] at hr₂
      cases hr₂
      cases hgr with
      | items _ hpath =>
        rw [hs, hpath]
        exact hg.itemPath (h.path id r hr)
    · have hlt := lt_size_of_record? hr'
      rw [ha.size] at hlt
      obtain rfl : id = ⟨p.records.size⟩ := RecordId.index_inj.1 (show id.index = p.records.size by omega)
      rw [ha.new] at hr'
      cases hr'
      exact hg.itemPath (hnew r' rfl).1
  · rcases hcases hqb with hb | ⟨rfl, r, hrecord, rfl⟩
    · rcases hcases hqa with ha' | ⟨rfl, -⟩
      · exact hg.below (h.below stream a b ha' hb hlt)
      · exact absurd hlt (Nat.not_lt.2 (Nat.le_of_lt hb.lt_size))
    · rcases hcases hqa with ha' | ⟨rfl, -⟩
      · obtain ⟨parent, hparent, hle, hiff, -⟩ := hlast r hrecord a ha'
        refine Below.child ?_ ((hiff parent).2 rfl)
        rcases Nat.lt_or_eq_of_le hle with hlt' | heq
        · exact hg.below (h.below _ a parent ha' hparent hlt')
        · rw [RecordId.index_inj.1 heq]
          exact .self
      · exact absurd hlt (Nat.lt_irrefl _)

/-- Only what is sent, pending and released changes. -/
theorem of_alike (h : p.Ordered) (ha : p.Alike q) : q.Ordered := by
  have hkids := ha.kids
  have hold : ∀ {stream id}, q.OfStream stream id → p.OfStream stream id := by
    rintro stream id ⟨r', hr', hs'⟩
    obtain ⟨r, hr, hs, -⟩ := ha.items hr'
    exact ⟨r, hr, hs.symm.trans hs'⟩
  have hnew : ∀ {stream id}, p.OfStream stream id → q.OfStream stream id := by
    rintro stream id ⟨r, hr, hs⟩
    obtain ⟨r', hr', hs', -⟩ := ha.symm.items hr
    exact ⟨r', hr', hs'.symm.trans hs⟩
  have hbelongs : ∀ {set id}, p.BelongsTo set id → q.BelongsTo set id := by
    rintro set id ⟨r, hr, hid⟩
    obtain ⟨r', hr', -, hfragments⟩ := ha.symm.fieldSet hr
    exact ⟨r', hr', hfragments ▸ hid⟩
  have hbelow : ∀ {a b}, p.Below a b → q.Below a b := by
    intro a b hb
    induction hb with
    | self => exact .self
    | child _ hchild ih => exact ih.child (by rw [hkids]; exact hchild)
  have hsize : q.records.size = p.records.size := by
    refine Nat.le_antisymm ?_ ?_ <;> refine Nat.le_of_not_lt fun hlt => ?_
    · obtain ⟨r, hr⟩ := exists_record? (p := q) (show RecordId.index ⟨p.records.size⟩ < q.records.size from hlt)
      obtain ⟨r', hr', -⟩ := ha.symm.record? hr
      exact Nat.lt_irrefl _ (lt_size_of_record? hr')
    · obtain ⟨r, hr⟩ := exists_record? (p := p) (show RecordId.index ⟨q.records.size⟩ < p.records.size from hlt)
      obtain ⟨r', hr', -⟩ := ha.record? hr
      exact Nat.lt_irrefl _ (lt_size_of_record? hr')
  refine ⟨fun a b child hlt hqa hqb hne => ?_, fun stream a b hqa hqb hlt id hid => ?_,
    fun a b r r' hr hf hr' hs hlt => ?_, fun id r' hr' => ?_, fun stream a b hqa hqb hlt => ?_⟩
  · rw [hkids] at hqa hqb
    rw [hsize] at hlt
    obtain ⟨set, hset, hset'⟩ := h.shared a b child hlt hqa hqb hne
    exact ⟨set, hbelongs hset, hbelongs hset'⟩
  · rw [hkids] at hid
    obtain ⟨hparent, hle⟩ := h.parent stream a b (hold hqa) (hold hqb) hlt id hid
    exact ⟨hnew hparent, hle⟩
  · obtain ⟨r₀, hr₀, hs₀, -, -, -, hf₀, -⟩ := ha.items hr
    obtain ⟨r₁, hr₁, hs₁, -, -, -, -, hf₁⟩ := ha.items hr'
    rw [hf₁]
    exact h.final a b r₀ r₁ hr₀ (hf₀.symm.trans hf) hr₁ (hs₁.symm.trans (hs.trans hs₀)) hlt
  · obtain ⟨r, hr, hs, hpath, -⟩ := ha.items hr'
    obtain ⟨s, hstream, i, hi⟩ := h.path id r hr
    refine ⟨s, ?_, i, hpath.trans hi⟩
    rw [hs]
    unfold Publisher.stream?
    rw [ha.streams]
    exact hstream
  · exact hbelow (h.below stream a b (hold hqa) (hold hqb) hlt)

end Ordered

/-- Filtering what is below the list of some items filters all later records of their stream. -/
theorem Ordered.filter_later (h : p.Ordered) {id b : RecordId} {r r' : ItemsRecord} {s : StreamRecord}
    (hr : p.record? id = some (.items r)) (hs : p.stream? r.stream = some s) (hr' : p.record? b = some (.items r'))
    (hstream : r'.stream = r.stream) (hlt : id.index < b.index) :
    (p.filter s.path id).1.record? b = some (.items { r' with filtered := true }) := by
  have hidem : ∀ r : Record, r.setFiltered.setFiltered = r.setFiltered := fun r => by cases r <;> rfl
  have hchildren : p.childrenOf id = p.kids id := by
    unfold childrenOf kids
    rw [hr]
    rfl
  have hbelow : b ∈ p.descendants (p.childrenOf id) := by
    rw [hchildren, mem_descendants]
    have hb := h.below r.stream id b ⟨r, hr, rfl⟩ ⟨r', hr', hstream⟩ hlt
    have hsome : ∀ {c}, p.Below id c → c ≠ id → ∃ root ∈ p.kids id, p.Below root c := by
      intro c hc
      induction hc with
      | self => exact fun hne => absurd rfl hne
      | @child j k hj hk ih =>
        intro _
        by_cases heq : j = id
        · subst heq
          exact ⟨k, hk, .self⟩
        · obtain ⟨root, hroot, hbelow⟩ := ih heq
          exact ⟨root, hroot, hbelow.child hk⟩
    refine hsome hb fun heq => ?_
    rw [heq] at hlt
    exact Nat.lt_irrefl _ hlt
  have hunder : p.isUnder b s.path = true := by
    obtain ⟨s', hs', i, hpath⟩ := h.path b r' hr'
    rw [hstream, hs] at hs'
    cases hs'
    unfold isUnder
    rw [hr']
    simp [hpath, Path.startsWith, Path.index]
  show ((List.filter _ _).foldl (fun p id => p.modifyRecord id Record.setFiltered) p).record? b = _
  rw [record?_foldl_modify hidem, if_pos (List.mem_filter.2 ⟨hbelow, hunder⟩), hr']
  rfl

end Publisher

namespace Stage

variable {s : ExecStage}

theorem same_publishAndClose (s : ExecStage) (f : Publisher Task → Publisher Task × List StreamId) :
    (f s.publisher).1.Same (s.publishAndClose f).publisher :=
  (closeStreams_eq (s.withPublisher (f s.publisher).1) (f s.publisher).2).2.1

end Stage

open Stage

/-- Every move keeps the records of each stream in order. -/
theorem Move.ordered {hand hand' : List RecordId} {s s' : ExecStage} (m : Move hand s hand' s') (h : Sound hand s)
    (ho : s.publisher.Ordered) : s'.publisher.Ordered := by
  have hl := h.publisher.linked
  have hlast : ∀ {stream id} {q : Publisher Task} {D F : RecordId → Prop}, s.publisher.Tail stream id →
      s.publisher.Updates q D F → ∀ a r, a = id → q.record? a = some (.items r) → ∀ b r',
      q.record? b = some (.items r') → r'.stream = r.stream → a.index < b.index → r'.filtered = true := by
    rintro stream id q D F ⟨⟨r₀, hr₀, hs₀, -⟩, htail⟩ hu a r rfl hr b r' hr' hs hlt
    obtain ⟨r₁, hr₁, hs₁, -⟩ := hu.items a r hr
    obtain ⟨r₂, hr₂, hs₂, -⟩ := hu.items b r' hr'
    rw [hr₀] at hr₁
    cases hr₁
    exact absurd hlt (Nat.not_lt.2 (htail b r₂ hr₂ (hs₂.symm.trans (hs.trans (hs₁.trans hs₀)))).1)
  have hattached : ∀ {parent : RecordId}, parent.index < s.publisher.records.size → ∀ record : Record,
      record.children = [] → ∀ a b,
        ⟨s.publisher.records.size⟩ ∈ ((s.publisher.push record).1.addChild parent ⟨s.publisher.records.size⟩).kids a →
        ⟨s.publisher.records.size⟩ ∈ ((s.publisher.push record).1.addChild parent ⟨s.publisher.records.size⟩).kids b →
        a ≠ b → ∃ set, s.publisher.BelongsTo set a ∧ s.publisher.BelongsTo set b := by
    intro parent hparent record hchildren a b ha hb
    rw [Publisher.mem_kids_push_addChild hl hparent record hchildren] at ha hb
    exact Publisher.belongsTo_of_attachedTo ha hb
  cases m with
  | reorder _ hsame => exact ho.of_same hsame
  | take hsame => exact ho.of_same hsame
  | rest _ hsame => exact ho.of_same hsame
  | fragment path label hparent =>
    exact ho.add (Publisher.Grows.addFragment _ path label _) (Publisher.Adds.addFragment hl path label hparent)
      (hattached hparent _ rfl) (fun r heq => absurd heq (by simp)) rfl
  | fieldSet path hfragments =>
    have hadds := Publisher.Adds.addFieldSet path hfragments
    refine ho.add (Publisher.Grows.addFieldSet _ path _) hadds (fun a _ ha => ?_)
      (fun r heq => absurd heq (by simp)) rfl
    -- a set of fields is nobody's child
    obtain ⟨r, hr, hmem⟩ := Publisher.mem_kids.1 ha
    obtain ⟨r', hr', hdeliverable⟩ := ((h.publisher.addFieldSet path hfragments).linked.children a r hr _ hmem).2
    rw [hadds.new] at hr'
    cases hr'
    exact hdeliverable.elim
  | stream path label hook =>
    exact ho.of_open (D := fun _ => False) (Publisher.Grows.addStream _ path label hook)
      ⟨rfl, rfl, fun _ r hr => ⟨r, hr, rfl, Or.inl, Or.inl⟩⟩
  | items hparent hpath hlast hidle =>
    refine ho.add (Publisher.Grows.addItems _ _ _ _) (Publisher.Adds.addItems hl _ _ hparent)
      (hattached hparent _ rfl) (fun r heq => ?_) rfl
    cases heq
    exact ⟨hpath, _, hparent, fun id => Publisher.mem_kids_push_addChild hl hparent _ rfl id, hlast⟩
  | error e hid =>
    exact ho.of_open (D := fun _ => False) (Publisher.Grows.addError _ _ e) (Publisher.Updates.addError _ _ e)
  | filter path id =>
    exact (ho.of_open (D := fun _ => False) (Publisher.Grows.filter _ path id)
      (Publisher.Updates.filter _ path id)).of_same (same_publishAndClose s fun p => p.filter path id)
  | @final _ _ _ id htail hidle =>
    exact ho.of_updates (D := fun _ => False) (F := (· = id)) (Publisher.Grows.setFinal _ id)
      (Publisher.Updates.setFinal _ rfl)
      (hlast htail (Publisher.Updates.setFinal (D := fun _ => False) (F := (· = id)) _ rfl))
  | completeSet data hid =>
    exact ho.of_open (D := fun _ => False) (Publisher.Grows.completeFieldSet _ _ data)
      (Publisher.Updates.completeFieldSet _ _ data)
  | failSet e hid =>
    exact ho.of_open (D := fun _ => False) (Publisher.Grows.failFieldSet _ _ e)
      (Publisher.Updates.failFieldSet _ _ e)
  | @completeItems _ _ id items hid =>
    exact ho.of_open (D := (· = id)) (Publisher.Grows.completeItems _ _ items)
      (Publisher.Updates.completeItems _ items rfl)
  | @failItems _ _ listPath id e hid =>
    obtain ⟨r, st, hr, -, hst, rfl⟩ := hid
    have hg := Publisher.Grows.filter (n := s.publisher.records.size) s.publisher st.path id
    have ho₁ := ho.of_open (D := fun _ => False) hg (Publisher.Updates.filter _ st.path id)
    have hsame₁ := same_publishAndClose s fun p => p.filter st.path id
    have ho₂ := ho₁.of_same hsame₁
    refine (ho₂.of_updates (D := (· = id)) (F := (· = id)) (Publisher.Grows.failItems _ id e)
      (Publisher.Updates.failItems _ e rfl rfl) fun a r₁ heq hr₁ b r' hr' hs hlt => ?_).of_same
      (same_publishAndClose _ fun p => p.failItems id e)
    subst heq
    have hu₁ : s.publisher.Updates (s.publisher.filter st.path a).1 (fun _ => False) fun _ => False :=
      Publisher.Updates.filter _ st.path a
    have hu₂ := Publisher.Updates.failItems (D := (· = a)) (F := (· = a))
      (s.publishAndClose fun p => p.filter st.path a).publisher e rfl rfl
    obtain ⟨r₂, hr₂, hs₂, -⟩ := hu₂.items b r' hr'
    obtain ⟨r₃, hr₃, hs₃, -⟩ := hu₂.items a r₁ hr₁
    rw [hsame₁.record?] at hr₂ hr₃
    obtain ⟨r₄, hr₄, hs₄, -⟩ := hu₁.items b r₂ hr₂
    obtain ⟨r₅, hr₅, hs₅, -⟩ := hu₁.items a r₃ hr₃
    rw [hr] at hr₅
    cases hr₅
    have hstream : r₄.stream = r.stream :=
      hs₄.symm.trans (hs₂.symm.trans (hs.trans (hs₃.trans hs₅)))
    have hfiltered := ho.filter_later hr hst hr₄ hstream hlt
    rw [← hsame₁.record?] at hfiltered
    obtain ⟨r₆, hr₆, hgr⟩ := (Publisher.Grows.failItems (n := 0) _ a e).records b _ hfiltered
    rw [hr'] at hr₆
    cases hr₆
    cases hgr with
    | items _ _ _ _ _ hf => exact hf rfl
  | @endItems _ _ _ id htail =>
    have hu : s.publisher.Updates ((s.publisher.setEnd id).completeItems id []) (· = id) (· = id) :=
      Publisher.Updates.trans (Publisher.Updates.setEnd _ rfl) (Publisher.Updates.completeItems _ [] rfl)
    exact ho.of_updates ((Publisher.Grows.setEnd _ _).trans (Publisher.Grows.completeItems _ _ _)) hu (hlast htail hu)
  | @retireItems _ _ id hid =>
    exact ho.of_open (D := (· = id)) (Publisher.Grows.retireItems _ id) (Publisher.Updates.retireItems _ rfl)

theorem Moves.ordered {hand hand' : List RecordId} {s s' : ExecStage} (m : Moves hand s hand' s') (h : Sound hand s)
    (ho : s.publisher.Ordered) : s'.publisher.Ordered := by
  induction m with
  | refl => exact ho
  | step ms m ih => exact m.ordered (ms.sound h) ih

end GraphQL
