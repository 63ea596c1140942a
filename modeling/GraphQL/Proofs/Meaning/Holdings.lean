import GraphQL.Proofs.Execution.StreamOrder
import GraphQL.Proofs.Meaning.TaskDeeds

/-!
# What records hold is what was asked for

The data of a set of fields is what its fields come to, and the items of a record are what the item of their list comes to
that stands at the place of the record, if the errors that were noted at the record are told (`Publisher.Filled`).  The records of a stream are counted: the first one
stands for the first item that is streamed, and each other one for the item after that of the record before it.  No
record comes after one that stands for the end of its list.
-/

namespace GraphQL

open Stage

/-- The stream and the path of items. -/
def Content.spot : Content → Option (StreamId × Path)
  | batch b => some (b.stream, b.path)
  | _ => none

/-- What a record holds that stands for an item of a list: nothing, as long as the item is not there and after it was
sent, unless nothing comes there; otherwise what the item comes to. -/
inductive Batch.Holds (c : ExecutionContext) (list : StreamedList) (p : Publisher Task) (id : RecordId) (position : Nat)
    (gone : Prop) (b : Batch) : Prop
  | nothing (hitems : b.items = []) (h : b.completed = true → gone ∨ b.final = true ∨ b.endsStream = true)
      (hgone : gone → b.completed = true)
  | item {v} (hitems : b.items = [v]) (hcompleted : b.completed = true) (hends : b.endsStream = false)
      (hgone : ¬ gone) (hv : list.GivesFor c p id position v)

/-- More is noted. -/
theorem Batch.Holds.mono {c : ExecutionContext} {list : StreamedList} {p q : Publisher Task} {id : RecordId}
    {position : Nat} {gone : Prop} {b : Batch} (h : b.Holds c list p id position gone)
    (hnoted : p.noted id ⊆ q.noted id) : b.Holds c list q id position gone := by
  cases h with
  | nothing hitems h hgone => exact .nothing hitems h hgone
  | item hitems hcompleted hends hgone hv =>
    obtain ⟨item, hitem, hgives⟩ := hv
    exact .item hitems hcompleted hends hgone ⟨item, hitem, hgives.mono hnoted⟩

namespace Publisher

variable {c : ExecutionContext} {l l' : Ledger} {p q : Publisher Task} {gone : List RecordId} {stream : StreamId}
  {id : RecordId} {position : Nat}

/-- The record stands for the first item of the list that is streamed and is the first of its stream, or it comes after a
record for the item before. -/
inductive Counted (l : Ledger) (p : Publisher Task) (stream : StreamId) (id : RecordId) : Nat → Prop
  | first (h : ∀ other, p.OfStream stream other → id.index ≤ other.index) :
      Counted l p stream id (l.lists stream).usage.initialCount
  | next {before : RecordId} {position : Nat} (hat : p.IsAt l stream before position) (hlt : before.index < id.index)
      (h : ∀ other, p.OfStream stream other → other.index < id.index → other.index ≤ before.index) :
      Counted l p stream id (position + 1)

/-- The data of sets of fields and the items of records are what was asked for, when some records were sent. -/
structure Filled (c : ExecutionContext) (l : Ledger) (gone : List RecordId) (p : Publisher Task) : Prop where
  sets : ∀ id path v, p.content id = .fields path (some v) → c.FieldsAt (l.sets id) ∧ (l.sets id).path = path ∧
    p.Gives c id (c.asked (l.sets id)) v
  batches : ∀ id b, p.content id = .batch b → ∃ position, b.path = (l.lists b.stream).place.path.index position ∧
    b.Holds c (l.lists b.stream) p id position (id ∈ gone)
  ends : ∀ id b, p.content id = .batch b → b.endsStream = true → b.completed = true ∧
    ∀ other, p.OfStream b.stream other → other.index ≤ id.index
  counted : ∀ stream id position, p.IsAt l stream id position → p.Counted l stream id position

theorem isAt_iff : p.IsAt l stream id position ↔
    (p.content id).spot = some (stream, (l.lists stream).place.path.index position) := by
  unfold IsAt content facet
  cases hr : p.record? id with
  | none => simp [Content.spot]
  | some r => cases r <;> simp [Record.content, Content.spot, ItemsRecord.batch]

theorem ofStream_iff : p.OfStream stream id ↔ ∃ path, (p.content id).spot = some (stream, path) := by
  unfold OfStream content facet
  cases hr : p.record? id with
  | none => simp [Content.spot]
  | some r => cases r <;> simp [Record.content, Content.spot, ItemsRecord.batch]

theorem content_of_size_le (h : p.records.size ≤ id.index) : p.content id = .nothing := by
  unfold content facet
  rw [show p.record? id = none from Array.getElem?_eq_none h]
  rfl

/-- Records of the same streams at the same paths are counted alike. -/
theorem Counted.of_spots (hspots : ∀ j, (q.content j).spot = (p.content j).spot) (h : p.Counted l stream id position) :
    q.Counted l stream id position := by
  have hstream : ∀ {j}, q.OfStream stream j → p.OfStream stream j := by
    intro j hj
    rw [ofStream_iff, hspots] at hj
    exact ofStream_iff.2 hj
  cases h with
  | first h => exact .first fun other hother => h other (hstream hother)
  | next hat hlt h =>
    refine .next (isAt_iff.2 ?_) hlt fun other hother => h other (hstream hother)
    rw [hspots]
    exact isAt_iff.1 hat

namespace Filled

/-- What records of items hold stays, and sets of fields only get data that is asked for. -/
theorem of_batches (h : p.Filled c l gone) (hq : ∀ j b, q.content j = .batch b ↔ p.content j = .batch b)
    (hsets : ∀ j path v, q.content j = .fields path (some v) → p.content j = .fields path (some v) ∨
      c.FieldsAt (l.sets j) ∧ (l.sets j).path = path ∧ q.Gives c j (c.asked (l.sets j)) v)
    (hnoted : ∀ j, p.content j ≠ .nothing → p.noted j ⊆ q.noted j) : q.Filled c l gone := by
  have hspots : ∀ j, (q.content j).spot = (p.content j).spot := by
    intro j
    cases hj : q.content j with
    | batch b => rw [(hq j b).1 hj]
    | _ =>
      cases hj' : p.content j with
      | batch b => exact absurd ((hq j b).2 hj') (by rw [hj]; simp)
      | _ => rfl
  refine ⟨fun id path v hid => ?_, fun id b hid => ?_, fun id b hid hends => ?_, fun stream id position hat => ?_⟩
  · refine (hsets id path v hid).elim (fun hold => ?_) fun hnew => hnew
    obtain ⟨hfields, hpath, hgives⟩ := h.sets id path v hold
    exact ⟨hfields, hpath, hgives.mono (hnoted id (by rw [hold]; simp))⟩
  · have hid' := (hq id b).1 hid
    obtain ⟨position, hposition, hholds⟩ := h.batches id b hid'
    exact ⟨position, hposition, hholds.mono (hnoted id (by rw [hid']; simp))⟩
  · obtain ⟨hcompleted, hlast⟩ := h.ends id b ((hq id b).1 hid) hends
    refine ⟨hcompleted, fun other hother => hlast other ?_⟩
    rw [ofStream_iff, hspots] at hother
    exact ofStream_iff.2 hother
  · rw [isAt_iff, hspots] at hat
    exact (h.counted stream id position (isAt_iff.2 hat)).of_spots hspots

/-- Nothing changes in what records hold. -/
theorem of_contents (h : p.Filled c l gone) (hq : ∀ j, q.content j = p.content j)
    (hnoted : ∀ j, p.content j ≠ .nothing → p.noted j ⊆ q.noted j) : q.Filled c l gone :=
  h.of_batches (fun j b => by rw [hq]) (fun j path v hj => .inl (hq j ▸ hj)) hnoted

/-- The ledger is continued. -/
theorem relist (h : p.Filled c l gone) (hl : p.Linked)
    (hlists : ∀ stream : StreamId, stream.index < p.streams.size → l'.lists stream = l.lists stream)
    (hsets : ∀ id : RecordId, id.index < p.records.size → l'.sets id = l.sets id) : p.Filled c l' gone := by
  have hknown : ∀ {stream id}, p.OfStream stream id → l'.lists stream = l.lists stream := by
    rintro stream id ⟨r, hr, rfl⟩
    obtain ⟨st, hst⟩ := hl.streams id r hr
    exact hlists _ (lt_size_of_stream? hst)
  have hbatch : ∀ {id b}, p.content id = .batch b → p.OfStream b.stream id := by
    intro id b hb
    exact ofStream_iff.2 ⟨b.path, by rw [hb]; rfl⟩
  refine ⟨fun id path v hid => ?_, fun id b hb => ?_, h.ends, fun stream id position hat => ?_⟩
  · obtain ⟨r, hr, -⟩ := content_eq_fields.1 hid
    rw [hsets id (lt_size_of_record? hr)]
    exact h.sets id path v hid
  · rw [hknown (hbatch hb)]
    exact h.batches id b hb
  · have hstream : p.OfStream stream id := ofStream_iff.2 ⟨_, isAt_iff.1 hat⟩
    have hold : p.IsAt l stream id position := by
      rw [isAt_iff, ← hknown hstream]
      exact isAt_iff.1 hat
    cases h.counted stream id position hold with
    | first hfirst =>
      rw [← hknown hstream]
      exact .first hfirst
    | next hat' hlt hprevious =>
      refine .next (isAt_iff.2 ?_) hlt hprevious
      rw [hknown hstream]
      exact isAt_iff.1 hat'

/-- What a record of items holds changes, but not its place. -/
theorem refill (h : p.Filled c l gone) {b b' : Batch} (hb : p.content id = .batch b)
    (hq : ∀ j, q.content j = if j = id then .batch b' else p.content j) (hstream : b'.stream = b.stream)
    (hpath : b'.path = b.path) (hnoted : ∀ j, p.noted j ⊆ q.noted j)
    (hholds : ∀ position, b.path = (l.lists b.stream).place.path.index position →
      b.Holds c (l.lists b.stream) q id position (id ∈ gone) → b'.Holds c (l.lists b.stream) q id position (id ∈ gone))
    (hends : b'.endsStream = true → b'.completed = true ∧ ∀ other, p.OfStream b.stream other → other.index ≤ id.index) :
    q.Filled c l gone := by
  have hspots : ∀ j, (q.content j).spot = (p.content j).spot := by
    intro j
    rw [hq]
    split
    · rename_i heq
      rw [heq, hb]
      simp only [Content.spot, hstream, hpath]
    · rfl
  have hof : ∀ {stream j}, q.OfStream stream j → p.OfStream stream j := by
    intro stream j hj
    rw [ofStream_iff, hspots] at hj
    exact ofStream_iff.2 hj
  refine ⟨fun j path v hj => ?_, fun j b₀ hj => ?_, fun j b₀ hj hends₀ => ?_, fun stream j position hat => ?_⟩
  · rw [hq] at hj
    split at hj
    · exact absurd hj (by simp)
    · obtain ⟨hfields, hset, hgives⟩ := h.sets j path v hj
      exact ⟨hfields, hset, hgives.mono (hnoted j)⟩
  · rw [hq] at hj
    split at hj
    · rename_i heq
      cases hj
      obtain ⟨position, hposition, hold⟩ := h.batches id b hb
      rw [heq, hstream, hpath]
      exact ⟨position, hposition, hholds position hposition (hold.mono (hnoted id))⟩
    · obtain ⟨position, hposition, hold⟩ := h.batches j b₀ hj
      exact ⟨position, hposition, hold.mono (hnoted j)⟩
  · rw [hq] at hj
    split at hj
    · rename_i heq
      cases hj
      obtain ⟨hcompleted, hlast⟩ := hends hends₀
      rw [heq, hstream]
      exact ⟨hcompleted, fun other hother => hlast other (hof hother)⟩
    · obtain ⟨hcompleted, hlast⟩ := h.ends j b₀ hj hends₀
      exact ⟨hcompleted, fun other hother => hlast other (hof hother)⟩
  · rw [isAt_iff, hspots] at hat
    exact (h.counted stream j position (isAt_iff.2 hat)).of_spots hspots

/-- A new set of fields holds nothing. -/
theorem addFieldSet (h : p.Filled c l gone) (path : Path) (fragments : List RecordId) :
    (p.addFieldSet path fragments).1.Filled c l gone := by
  have hcontent := content_addFieldSet p path fragments
  refine h.of_batches (fun j b => ?_) (fun j path' v hj => .inl ?_) fun j _ => ?_
  · rw [hcontent]
    split
    · rename_i heq
      rw [content_of_size_le (p := p) (heq ▸ Nat.le_refl _)]
      simp
    · rfl
  · rw [hcontent] at hj
    split at hj
    · exact absurd hj (by simp)
    · exact hj
  · rw [noted_addFieldSet]
    exact List.Subset.refl _

/-- A set of fields gets data that its fields come to. -/
theorem completeFieldSet (h : p.Filled c l gone) {v : Json} (hv : p.SetGives c l id v) :
    (p.completeFieldSet id v).Filled c l gone := by
  obtain ⟨r, hr, hfields, hpath, hgives⟩ := hv
  have hcontent := content_completeFieldSet hr v
  have hnoted : ∀ j, p.noted j ⊆ (p.completeFieldSet id v).noted j := fun j => by
    rw [noted_completeFieldSet]
    exact List.Subset.refl _
  refine h.of_batches (fun j b => ?_) (fun j path' w hj => ?_) fun j _ => hnoted j
  · rw [hcontent]
    split
    · rename_i heq
      rw [heq, content_of_record? hr]
      simp [Record.content]
    · rfl
  · rw [hcontent] at hj
    split at hj
    · rename_i heq
      subst heq
      cases hj
      exact .inr ⟨hfields, hpath, hgives.mono (hnoted j)⟩
    · exact .inl hj

/-- A new record stands for the first item that is streamed, or for the next one. -/
theorem addItems (h : p.Filled c l gone) {parent : RecordId} (hfresh : ⟨p.records.size⟩ ∉ gone)
    (hlast : p.Unused stream ∧ position = (l.lists stream).usage.initialCount ∨
      p.Tail stream parent ∧ ∃ before, p.IsAt l stream parent before ∧ position = before + 1) :
    (p.addItems stream ((l.lists stream).place.path.index position) parent).1.Filled c l gone := by
  have hcontent := content_addItems p stream ((l.lists stream).place.path.index position) parent
  have hnoted := noted_addItems p stream ((l.lists stream).place.path.index position) parent
  generalize (p.addItems stream ((l.lists stream).place.path.index position) parent).1 = q at hcontent hnoted
  have hnew : q.content ⟨p.records.size⟩ =
      .batch { stream := stream, path := (l.lists stream).place.path.index position } := (hcontent _).trans (if_pos rfl)
  have hold : ∀ {j}, j.index < p.records.size → q.content j = p.content j := by
    intro j hlt
    rw [hcontent, if_neg]
    rintro rfl
    exact Nat.lt_irrefl _ hlt
  have hof : ∀ {stream' other}, q.OfStream stream' other → p.OfStream stream' other ∨
      stream' = stream ∧ other.index = p.records.size := by
    intro stream' other hother
    rw [ofStream_iff] at hother
    rcases Decidable.em (other = ⟨p.records.size⟩) with rfl | hne
    · obtain ⟨path, hspot⟩ := hother
      rw [hnew] at hspot
      cases hspot
      exact .inr ⟨rfl, rfl⟩
    · rw [hcontent, if_neg hne] at hother
      exact .inl (ofStream_iff.2 hother)
  have hlt : ∀ {stream' other}, p.OfStream stream' other → other.index < p.records.size := fun h => h.lt_size
  -- what holds of records that were there goes on
  have hkeep : ∀ {stream' j position'}, j.index < p.records.size → p.Counted l stream' j position' →
      q.Counted l stream' j position' := by
    intro stream' j position' hj hcounted
    cases hcounted with
    | first hfirst =>
      refine .first fun other hother => ?_
      rcases hof hother with hother | ⟨-, hother⟩
      · exact hfirst other hother
      · exact hother ▸ Nat.le_of_lt hj
    | next hat hbefore hprevious =>
      refine .next (isAt_iff.2 ?_) hbefore fun other hother hbelow => ?_
      · rw [hold (Nat.lt_trans hbefore hj)]
        exact isAt_iff.1 hat
      · rcases hof hother with hother | ⟨-, hother⟩
        · exact hprevious other hother hbelow
        · exact absurd (hother ▸ hbelow) (Nat.not_lt.2 (Nat.le_of_lt hj))
  have hkept : ∀ j, p.noted j ⊆ q.noted j := fun j => by
    rw [hnoted]
    exact List.Subset.refl _
  refine ⟨fun j path v hj => ?_, fun j b hj => ?_, fun j b hj hends => ?_, fun stream' j position' hat => ?_⟩
  · rw [hcontent] at hj
    split at hj
    · exact absurd hj (by simp)
    · obtain ⟨hfields, hset, hgives⟩ := h.sets j path v hj
      exact ⟨hfields, hset, hgives.mono (hkept j)⟩
  · rw [hcontent] at hj
    split at hj
    · rename_i heq
      cases hj
      exact ⟨position, rfl, .nothing rfl (fun hfalse => absurd hfalse (by simp)) fun hgone => absurd (heq ▸ hgone) hfresh⟩
    · obtain ⟨position', hposition, hold'⟩ := h.batches j b hj
      exact ⟨position', hposition, hold'.mono (hkept j)⟩
  · rw [hcontent] at hj
    split at hj
    · cases hj
      exact absurd hends (by simp)
    · obtain ⟨hcompleted, hafter⟩ := h.ends j b hj hends
      refine ⟨hcompleted, fun other hother => ?_⟩
      rcases hof hother with hother | ⟨hstream, -⟩
      · exact hafter other hother
      · -- the record before the new one would be the last of a stream that has ended, but it is open
        have hj' : p.OfStream stream j := ofStream_iff.2 ⟨b.path, by rw [hj, ← hstream]; rfl⟩
        rcases hlast with ⟨hunused, -⟩ | ⟨⟨⟨r, hr, hrs, hopen⟩, htail⟩, -⟩
        · obtain ⟨r, hr, hrs⟩ := hj'
          exact absurd hrs (hunused j r hr)
        · obtain ⟨r', hr', hrs'⟩ := hj'
          have hle := (htail j r' hr' hrs').1
          have hge := hafter parent ⟨r, hr, hrs.trans hstream.symm⟩
          obtain rfl : j = parent := RecordId.index_inj.1 (Nat.le_antisymm hle hge)
          rw [content_of_record? hr] at hj
          cases hj
          exact absurd (hopen.symm.trans hcompleted) (by simp)
  · rcases Decidable.em (j = ⟨p.records.size⟩) with rfl | hne
    · rw [isAt_iff, hnew] at hat
      obtain ⟨rfl, hpath⟩ := Prod.mk.inj (Option.some.inj hat)
      obtain rfl : position = position' := by simpa [Path.index] using hpath
      rcases hlast with ⟨hunused, rfl⟩ | ⟨⟨⟨r, hr, hrs, -⟩, htail⟩, before, hbefore, rfl⟩
      · refine .first fun other hother => ?_
        rcases hof hother with ⟨r, hr, hrs⟩ | ⟨-, hother⟩
        · exact absurd hrs (hunused other r hr)
        · exact Nat.le_of_eq hother.symm
      · have hparent := lt_size_of_record? hr
        refine .next (isAt_iff.2 ?_) hparent fun other hother hbelow => ?_
        · rw [hold hparent]
          exact isAt_iff.1 hbefore
        · rcases hof hother with ⟨r', hr', hrs'⟩ | ⟨-, hother⟩
          · exact (htail other r' hr' hrs').1
          · exact absurd (hother ▸ hbelow) (Nat.lt_irrefl _)
    · rw [isAt_iff, hcontent, if_neg hne] at hat
      have hat' : p.IsAt l stream' j position' := isAt_iff.2 hat
      obtain ⟨r, hr, -⟩ := id hat'
      exact hkeep (lt_size_of_record? hr) (h.counted stream' j position' hat')

/-- A look takes what it sends out of the records. -/
theorem look (h : p.Filled c l gone) (hs : p.Sound) (hl : p.Listed) :
    p.nextResult?.1.Filled c l (gone ++ p.sent.map Prod.fst) := by
  have hcontent := hs.content_nextResult? hl.listsOnce
  have hkept : ∀ {j}, j ∉ p.sent.map Prod.fst → p.noted j ⊆ p.nextResult?.1.noted j := fun {j} hsent => by
    rw [(hs.noted_nextResult? hl.listsOnce j).1 hsent]
    exact List.Subset.refl _
  -- items are sent when they are completed
  have hcompletes : ∀ {j b}, j ∈ p.sent.map Prod.fst → p.content j = .batch b → b.completed = true := by
    intro j b hsent hj
    obtain ⟨r, hr, rfl⟩ := content_eq_batch.1 hj
    obtain ⟨⟨_, label⟩, hmem, rfl⟩ := List.mem_map.1 hsent
    rcases hl.mem_sent hmem with ⟨hreleased, -⟩ | ⟨hunsent, -⟩
    · exact hs.prompt.completed _ r hreleased hr
    · unfold isUnsent at hunsent
      rw [hr] at hunsent
      exact absurd hunsent (by simp)
  have hspots : ∀ j, (p.nextResult?.1.content j).spot = (p.content j).spot := by
    intro j
    rw [hcontent]
    split
    · cases p.content j <;> rfl
    · rfl
  have hof : ∀ {stream j}, p.nextResult?.1.OfStream stream j → p.OfStream stream j := by
    intro stream j hj
    rw [ofStream_iff, hspots] at hj
    exact ofStream_iff.2 hj
  -- a record of items holds what it held, or nothing once it was sent
  have hold : ∀ {j b}, p.nextResult?.1.content j = .batch b → ∃ b₀, p.content j = .batch b₀ ∧
      (b = b₀ ∨ b = { b₀ with items := [] } ∧ j ∈ p.sent.map Prod.fst) := by
    intro j b hj
    rw [hcontent] at hj
    split at hj
    · rename_i hsent
      cases hj' : p.content j with
      | batch b₀ =>
        rw [hj'] at hj
        cases hj
        exact ⟨b₀, rfl, .inr ⟨rfl, hsent⟩⟩
      | _ =>
        rw [hj'] at hj
        exact absurd hj (by simp [Content.emptied])
    · exact ⟨b, hj, .inl rfl⟩
  refine ⟨fun j path v hj => ?_, fun j b hj => ?_, fun j b hj hends => ?_, fun stream j position hat => ?_⟩
  · rw [hcontent] at hj
    split at hj
    · cases hj' : p.content j <;> rw [hj'] at hj <;> exact absurd hj (by simp [Content.emptied])
    · rename_i hsent
      obtain ⟨hfields, hset, hgives⟩ := h.sets j path v hj
      exact ⟨hfields, hset, hgives.mono (hkept hsent)⟩
  · obtain ⟨b₀, hj₀, hb⟩ := hold hj
    obtain ⟨position, hposition, hholds⟩ := h.batches j b₀ hj₀
    rcases hb with rfl | ⟨rfl, hsent⟩
    · refine ⟨position, hposition, ?_⟩
      rw [hcontent] at hj
      by_cases hsent : j ∈ p.sent.map Prod.fst
      · rw [if_pos hsent, hj₀] at hj
        have hnil : b.items = [] := by
          have hemptied : ({ b with items := [] } : Batch) = b := Content.batch.inj hj
          rw [← hemptied]
        exact .nothing hnil (fun _ => .inl (List.mem_append_right _ hsent)) fun _ => hcompletes hsent hj₀
      · have hiff : j ∈ gone ++ p.sent.map Prod.fst ↔ j ∈ gone := by
          rw [List.mem_append, or_iff_left hsent]
        rw [hiff]
        exact hholds.mono (hkept hsent)
    · have hcompleted := hcompletes hsent hj₀
      exact ⟨position, hposition, .nothing rfl (fun _ => .inl (List.mem_append_right _ hsent)) fun _ => hcompleted⟩
  · obtain ⟨b₀, hj₀, hb⟩ := hold hj
    have hsame : b.stream = b₀.stream ∧ b.completed = b₀.completed ∧ b.endsStream = b₀.endsStream := by
      rcases hb with rfl | ⟨rfl, -⟩ <;> exact ⟨rfl, rfl, rfl⟩
    obtain ⟨hcompleted, hlast⟩ := h.ends j b₀ hj₀ (hsame.2.2 ▸ hends)
    exact ⟨hsame.2.1.trans hcompleted, fun other hother => hlast other (hof (hsame.1 ▸ hother))⟩
  · rw [isAt_iff, hspots] at hat
    exact (h.counted stream j position (isAt_iff.2 hat)).of_spots hspots

end Filled

end Publisher

/-! ### Deeds -/

variable {c : ExecutionContext} {l l' : Ledger} {hand hand' gone : List RecordId} {s s' : ExecStage}

open Publisher in
/-- Deeds fill records with what was asked for. -/
theorem Deed.filled (d : Deed c l hand s l' hand' s') (hs : Sound hand s) (h : s.publisher.Filled c l gone)
    (hgone : ∀ id ∈ gone, id.index < s.publisher.records.size) : s'.publisher.Filled c l' gone := by
  -- a record in hand waits for its items
  have hopened : ∀ {id b}, id ∈ hand → s.publisher.content id = .batch b → b.completed = false := by
    intro id b hid hb
    obtain ⟨r, hr, rfl⟩ := content_eq_batch.1 hb
    rcases hs.opened id hid with ⟨r', hr'⟩ | ⟨r', hr', hopen⟩
    · rw [hr] at hr'
      exact absurd hr' (by simp)
    · rw [hr] at hr'
      cases hr'
      exact hopen
  have hempty : ∀ {b : Batch} {list q id position gone}, b.completed = false → b.Holds c list q id position gone →
      b.items = [] := by
    intro b list q id position gone hopen hholds
    cases hholds with
    | nothing hitems => exact hitems
    | item _ hcompleted => exact absurd (hopen.symm.trans hcompleted) (by simp)
  have hkept : ∀ {b : Batch} {list q id position} {gone : Prop}, b.completed = false →
      b.Holds c list q id position gone → ¬ gone := by
    intro b list q id position gone hopen hholds hgone
    cases hholds with
    | nothing _ _ hcompleted => exact absurd (hopen.symm.trans (hcompleted hgone)) (by simp)
    | item _ hcompleted => exact absurd (hopen.symm.trans hcompleted) (by simp)
  have hopenEnds : ∀ {id b}, s.publisher.content id = .batch b → b.completed = false → b.endsStream = false := by
    intro id b hb hopen
    by_contra hends
    exact absurd (hopen.symm.trans (h.ends id b hb (by simpa using hends)).1) (by simp)
  have htail : ∀ {stream id}, s.publisher.Tail stream id → ∃ r, s.publisher.record? id = some (.items r) ∧
      r.completed = false ∧ ∀ other, s.publisher.OfStream r.stream other → other.index ≤ id.index := by
    rintro stream id ⟨⟨r, hr, hrs, hopen⟩, hlast⟩
    refine ⟨r, hr, hopen, fun other ⟨r', hr', hrs'⟩ => (hlast other r' hr' (hrs'.trans hrs)).1⟩
  have hnotes := d.notes.kept
  cases d with
  | aside hlists hsets m hleaves =>
    refine (h.of_contents hleaves.contents fun j _ => hnotes j).relist (m.sound hs).publisher.linked
      (fun stream _ => by rw [hlists]) fun id _ => by rw [hsets]
  | error e hid => exact h.of_contents (content_addError _ _ e) fun j _ => hnotes j
  | fieldSet path fields =>
    have hsets : s.publisher.Filled c (l.withSet ⟨s.publisher.records.size⟩ fields) gone :=
      h.relist hs.publisher.linked (fun _ _ => rfl) fun id hlt =>
        Function.update_of_ne (by rintro rfl; exact Nat.lt_irrefl _ hlt) _ _
    exact hsets.addFieldSet path _
  | stream list hook =>
    have hlists : s.publisher.Filled c (l.withList ⟨s.publisher.streams.size⟩ list) gone :=
      h.relist hs.publisher.linked (fun stream hlt =>
        Function.update_of_ne (by rintro rfl; exact Nat.lt_irrefl _ hlt) _ _) fun _ _ => rfl
    exact hlists.of_contents (fun j => rfl) fun j _ => hnotes j
  | items hparent hpath hposition hlast =>
    subst hposition
    exact h.addItems (fun hmem => Nat.lt_irrefl _ (hgone _ hmem)) (hlast.imp_left fun h => ⟨h.1, h.2.1⟩)
  | final hlast =>
    obtain ⟨r, hr, hopen, -⟩ := htail hlast
    have hb := content_of_record? hr
    refine h.refill hb (content_setFinal hr) rfl rfl hnotes (fun position _ hholds => ?_) fun hends => ?_
    · exact .nothing (hempty (b := r.batch) hopen hholds) (fun hcompleted => absurd (hopen.symm.trans hcompleted) (by simp))
        fun hgone => absurd hgone (hkept (b := r.batch) hopen hholds)
    · exact absurd ((hopenEnds hb hopen).symm.trans hends) (by simp)
  | failSet e hid => exact h.of_contents (content_failFieldSet _ _ e) fun j _ => hnotes j
  | @completeItems _ _ stream id position v hat hv =>
    obtain ⟨r, hr, hrs, hpath⟩ := hat
    have hb : s.publisher.content id = .batch r.batch := content_of_record? hr
    have hopen := hopened List.mem_cons_self hb
    have hgoes := hopenEnds hb hopen
    refine h.refill hb (content_completeItems hr [v]) rfl rfl hnotes (fun position' hposition hholds => ?_)
      fun hends => ?_
    · have hrs' : r.batch.stream = stream := hrs
      rw [hrs'] at hposition ⊢
      obtain rfl : position = position' := by
        have hindex := hpath.symm.trans hposition
        simpa [Path.index] using hindex
      obtain ⟨item, hitem, hgives⟩ := hv
      exact .item rfl rfl hgoes (hkept (b := r.batch) hopen hholds) ⟨item, hitem, hgives.mono (hnotes id)⟩
    · exact absurd (hgoes.symm.trans hends) (by simp)
  | @failItems _ _ listPath stream id position e hid hat =>
    have hfilter : (s.publishAndClose fun p => p.filter listPath id).publisher.Filled c l gone :=
      h.of_contents (Publisher.Leaves.filter s listPath id).contents fun j _ => by
        rw [(Publisher.Leaves.filter s listPath id).noted]
        exact List.Subset.refl _
    obtain ⟨r, hr, hrs, hpath⟩ := hat
    have hb : s.publisher.content id = .batch r.batch := content_of_record? hr
    have hopen := hopened List.mem_cons_self hb
    have hb' := ((Publisher.Leaves.filter s listPath id).contents id).trans hb
    obtain ⟨r', hr', hbatch⟩ := content_eq_batch.1 hb'
    have hopen' : r'.batch.completed = false := by rw [hbatch]; exact hopen
    have hends : r'.batch.endsStream = false := by rw [hbatch]; exact hopenEnds hb hopen
    rw [← hbatch] at hb'
    have hfailed := noted_failItems (s.publishAndClose fun p => p.filter listPath id).publisher id e
    have hfail := hfilter.refill hb' (content_failItems hr' e) rfl rfl (fun j => by
        rw [hfailed]
        exact List.Subset.refl _)
      (fun position _ hholds => .nothing (hempty (b := r'.batch) hopen' hholds) (fun _ => .inr (.inl rfl)) fun _ => rfl)
      fun hends' => absurd (hends.symm.trans hends') (by simp)
    have hsame := same_publishAndClose (s.publishAndClose fun p => p.filter listPath id) fun p => p.failItems id e
    exact hfail.of_contents (content_same hsame) fun j _ => by
      rw [noted_same hsame]
      exact List.Subset.refl _
  | endItems hlast =>
    obtain ⟨r, hr, hopen, hafter⟩ := htail hlast
    exact h.refill (content_of_record? hr) (content_endItems hr) rfl rfl hnotes
      (fun _ _ _ => .nothing rfl (fun _ => .inr (.inl rfl)) fun _ => rfl) fun _ => ⟨rfl, hafter⟩
  | retireItems hlast =>
    obtain ⟨r, hr, hopen, hafter⟩ := htail hlast
    exact h.refill (content_of_record? hr) (content_retireItems hr) rfl rfl hnotes
      (fun _ _ hholds => .nothing (hempty (b := r.batch) hopen hholds) (fun _ => .inr (.inr rfl)) fun _ => rfl)
      fun _ => ⟨rfl, hafter⟩

/-- Series of deeds fill records with what was asked for. -/
theorem Deeds.filled (d : Deeds c l hand s l' hand' s') (hs : Sound hand s) (h : s.publisher.Filled c l gone)
    (hgone : ∀ id ∈ gone, id.index < s.publisher.records.size) : s'.publisher.Filled c l' gone := by
  induction d with
  | refl => exact h
  | step before d ih =>
    exact d.filled (before.moves.sound hs) ih fun id hid => Nat.lt_of_lt_of_le (hgone id hid) before.moves.grows.size_le

end GraphQL
