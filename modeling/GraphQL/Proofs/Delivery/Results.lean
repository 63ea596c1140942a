import GraphQL.Proofs.Delivery.Readiness

/-!
# What a result does to the publisher

A result is made of the released records.  They are no longer pending then, their children are unless they are filtered
(`mem_pending_nextResult?`), and only such children are released afterwards (`released_nextResult?`).  Apart from what
was sent, no record changes: all records keep their outline.
-/

namespace GraphQL

namespace Record

/-- A record without what is sent of it. -/
def outline : Record → Record
  | initial r => initial { r with errors := [] }
  | fieldSet r => fieldSet { r with data := none, errors := [], sent := false }
  | items r => items { r with items := [], errors := [] }
  | r => r

@[simp]
theorem children_outline (r : Record) : r.outline.children = r.children := by cases r <;> rfl

@[simp]
theorem isFiltered_outline (r : Record) : r.outline.isFiltered = r.isFiltered := by cases r <;> rfl

end Record

namespace Publisher

variable {ω : Type} {p q : Publisher ω} {id : RecordId}

/-- Two publishers with the same records apart from what is sent of them, and the same streams and work. -/
structure Alike (p q : Publisher ω) : Prop where
  records : ∀ id, (q.record? id).map Record.outline = (p.record? id).map Record.outline
  streams : q.streams = p.streams
  inbox : q.inbox = p.inbox
  closed : q.closed = p.closed

/-- The record is a child of another one, and it is not filtered. -/
def Follows (p : Publisher ω) (parent child : RecordId) : Prop :=
  ∃ r, p.record? parent = some r ∧ child ∈ r.children ∧ (p.record? child).any Record.isFiltered = false

namespace Alike

theorem refl (p : Publisher ω) : p.Alike p := ⟨fun _ => rfl, rfl, rfl, rfl⟩

theorem symm (h : p.Alike q) : q.Alike p :=
  ⟨fun id => (h.records id).symm, h.streams.symm, h.inbox.symm, h.closed.symm⟩

theorem trans {u : Publisher ω} (h : p.Alike q) (h' : q.Alike u) : p.Alike u :=
  ⟨fun id => (h'.records id).trans (h.records id), h'.streams.trans h.streams, h'.inbox.trans h.inbox,
    h'.closed.trans h.closed⟩

theorem record? (h : p.Alike q) {r : Record} (hr : p.record? id = some r) :
    ∃ r', q.record? id = some r' ∧ r'.outline = r.outline := by
  have hmap := h.records id
  rw [hr] at hmap
  exact Option.map_eq_some_iff.1 hmap

theorem items (h : p.Alike q) {r' : ItemsRecord} (hr' : q.record? id = some (.items r')) :
    ∃ r, p.record? id = some (.items r) ∧ r'.stream = r.stream ∧ r'.path = r.path ∧ r'.children = r.children ∧
      r'.completed = r.completed ∧ r'.final = r.final ∧ r'.filtered = r.filtered := by
  obtain ⟨r, hr, hout⟩ := h.symm.record? hr'
  cases r with
  | items r =>
    simp only [Record.outline, Record.items.injEq, ItemsRecord.mk.injEq] at hout
    exact ⟨r, hr, hout.1.symm, hout.2.1.symm, hout.2.2.2.2.1.symm, hout.2.2.2.2.2.1.symm, hout.2.2.2.2.2.2.1.symm,
      hout.2.2.2.2.2.2.2.2.symm⟩
  | _ => exact absurd hout (by simp [Record.outline])

theorem fieldSet (h : p.Alike q) {r' : FieldSetRecord} (hr' : q.record? id = some (.fieldSet r')) :
    ∃ r, p.record? id = some (.fieldSet r) ∧ r'.path = r.path ∧ r'.fragments = r.fragments := by
  obtain ⟨r, hr, hout⟩ := h.symm.record? hr'
  cases r with
  | fieldSet r =>
    simp only [Record.outline, Record.fieldSet.injEq, FieldSetRecord.mk.injEq] at hout
    exact ⟨r, hr, hout.1.symm, hout.2.1.symm⟩
  | _ => exact absurd hout (by simp [Record.outline])

theorem fragment (h : p.Alike q) {r' : FragmentRecord} (hr' : q.record? id = some (.fragment r')) :
    p.record? id = some (.fragment r') := by
  obtain ⟨r, hr, hout⟩ := h.symm.record? hr'
  cases r with
  | fragment r => rw [hr]; exact congrArg some hout
  | _ => exact absurd hout (by simp [Record.outline])

theorem any_isFiltered (h : p.Alike q) (id : RecordId) :
    (q.record? id).any Record.isFiltered = (p.record? id).any Record.isFiltered := by
  have hmap : ∀ o : Option Record, o.any Record.isFiltered = (o.map Record.outline).any Record.isFiltered := by
    intro o
    cases o <;> simp
  rw [hmap, h.records id, ← hmap]

theorem follows (h : p.Alike q) {parent child : RecordId} (hf : p.Follows parent child) : q.Follows parent child := by
  obtain ⟨r, hr, hc, hfilter⟩ := hf
  obtain ⟨r', hr', hout⟩ := h.record? hr
  refine ⟨r', hr', ?_, by rw [h.any_isFiltered]; exact hfilter⟩
  rw [← Record.children_outline, hout, Record.children_outline]
  exact hc

theorem modifyRecord {f : Record → Record} (hf : ∀ r, p.record? id = some r → (f r).outline = r.outline) :
    p.Alike (p.modifyRecord id f) := by
  refine ⟨fun j => ?_, rfl, rfl, rfl⟩
  rw [record?_modifyRecord]
  split
  · rename_i heq
    subst heq
    cases hr : p.record? id with
    | none => rfl
    | some r => exact congrArg some (hf r hr)
  · rfl

end Alike

/-! ### Publishing -/

theorem alike_publish (p : Publisher ω) (id : RecordId) : p.Alike (p.publish id) := by
  unfold publish
  dsimp only
  split <;> exact ⟨fun _ => rfl, rfl, rfl, rfl⟩

theorem mem_pending_publish (hid : p.IsDeliverable id) (j : RecordId) :
    j ∈ (p.publish id).pending ↔ j ∈ p.pending ∨ j = id := by
  obtain ⟨r, hr, hd⟩ := hid
  unfold publish
  rw [hr]
  cases r
  case fragment r => dsimp only; split <;> simp_all [mem_addNew]
  case items r => dsimp only; split <;> simp_all [mem_addNew]
  all_goals exact hd.elim

theorem released_publish {j : RecordId} (hj : j ∈ (p.publish id).released) : j ∈ p.released ∨ j = id := by
  unfold publish at hj
  dsimp only at hj
  split at hj
  · exact mem_addNew.1 hj
  · exact Or.inl hj
  · exact Or.inl hj

/-- What `publish` reads off a record is whether it is ready. -/
private theorem ready_iff_of_record? {r : Record} (hr : p.record? id = some r) :
    r.Ready ↔ (match p.record? id with
      | some (.items r) => some r.completed
      | some (.fragment r) => some (r.unfinished.isEmpty || !r.errors.isEmpty)
      | _ => none) = some true := by
  rw [hr]
  cases r <;> simp [Record.Ready]

theorem Sound.publish (h : p.Sound) (hid : p.IsDeliverable id) : (p.publish id).Sound := by
  have hlinked : ∀ pending released, Linked { p with pending := pending, released := released } := fun _ _ =>
    ⟨h.linked.children, h.linked.fragments, h.linked.unfinished, h.linked.streams⟩
  have hmem : ∀ j, j ∈ addNew p.pending id → p.IsDeliverable j := by
    intro j hj
    rcases mem_addNew.1 hj with hj | rfl
    · exact h.prompt.deliverable j hj
    · exact hid
  unfold Publisher.publish
  dsimp only
  split
  · rename_i htrue
    refine ⟨hlinked _ _, nodup_addNew h.prompt.nodup, nodup_addNew h.prompt.releasedNodup, hmem, fun j hj => ?_,
      fun j r hj hr => ?_, fun j r hj hr hr' => ?_⟩
    · exact mem_addNew.2 ((mem_addNew.1 hj).imp_left (h.prompt.released j))
    · rcases mem_addNew.1 hj with hj | rfl
      · exact h.prompt.completed j r hj hr
      · exact (ready_iff_of_record? hr).2 htrue
    · exact mem_addNew.2 ((mem_addNew.1 hj).imp_left fun hj => h.prompt.ready j r hj hr hr')
  · rename_i hfalse
    refine ⟨hlinked _ _, nodup_addNew h.prompt.nodup, h.prompt.releasedNodup, hmem, fun j hj => ?_,
      h.prompt.completed, fun j r hj hr hr' => ?_⟩
    · exact mem_addNew.2 (Or.inl (h.prompt.released j hj))
    · rcases mem_addNew.1 hj with hj | rfl
      · exact h.prompt.ready j r hj hr hr'
      · exact absurd (hfalse.symm.trans ((ready_iff_of_record? hr).1 hr')) (by simp)
  · exact h

/-- The children that become pending with the delivery of a record. -/
private def followers (p : Publisher ω) (id : RecordId) : List RecordId :=
  (((p.record? id).map Record.children).getD []).filter fun child => !((p.record? child).any Record.isFiltered)

private theorem mem_followers (p : Publisher ω) (parent child : RecordId) :
    child ∈ p.followers parent ↔ p.Follows parent child := by
  unfold followers Follows
  cases hr : p.record? parent with
  | none => simp
  | some r => simp

theorem Linked.isDeliverable_of_follows (h : p.Linked) {parent child : RecordId} (hf : p.Follows parent child) :
    parent.index < child.index ∧ p.IsDeliverable child := by
  obtain ⟨r, hr, hc, -⟩ := hf
  exact h.children parent r hr child hc

private theorem foldl_publish (h : p.Sound) (ids : List RecordId) (hids : ∀ id ∈ ids, p.IsDeliverable id) :
    (ids.foldl publish p).Sound ∧ p.Alike (ids.foldl publish p) ∧
      (∀ j, j ∈ (ids.foldl publish p).pending ↔ j ∈ p.pending ∨ j ∈ ids) ∧
      ∀ j ∈ (ids.foldl publish p).released, j ∈ p.released ∨ j ∈ ids := by
  induction ids generalizing p with
  | nil => exact ⟨h, Alike.refl p, by simp, fun j hj => Or.inl hj⟩
  | cons id rest ih =>
    have hid : p.IsDeliverable id := hids id List.mem_cons_self
    have hrest : ∀ j ∈ rest, (p.publish id).IsDeliverable j := by
      intro j hj
      obtain ⟨r, hr, hd⟩ := hids j (List.mem_cons_of_mem _ hj)
      obtain ⟨r', hr', hout⟩ := (alike_publish p id).record? hr
      refine ⟨r', hr', ?_⟩
      cases r <;> cases r' <;> first | exact hd | trivial
    obtain ⟨hs, ha, hp, hr⟩ := ih (h.publish hid) hrest
    refine ⟨hs, (alike_publish p id).trans ha, fun j => ?_, fun j hj => ?_⟩
    · rw [List.foldl_cons, hp, mem_pending_publish hid, List.mem_cons, or_assoc]
    · rcases hr j hj with hj | hj
      · rcases released_publish hj with hj | rfl
        · exact Or.inl hj
        · exact Or.inr List.mem_cons_self
      · exact Or.inr (List.mem_cons_of_mem _ hj)

theorem Sound.publishChildren (h : p.Sound) (id : RecordId) :
    (p.publishChildren id).Sound ∧ p.Alike (p.publishChildren id) ∧
      (∀ j, j ∈ (p.publishChildren id).pending ↔ j ∈ p.pending ∨ p.Follows id j) ∧
      ∀ j ∈ (p.publishChildren id).released, j ∈ p.released ∨ p.Follows id j := by
  have hall := foldl_publish h (p.followers id) fun j hj =>
    (h.linked.isDeliverable_of_follows ((mem_followers p id j).1 hj)).2
  simp only [mem_followers] at hall
  exact hall

/-! ### Delivery -/

/-- What of a released record says that a fragment or list is completed. -/
def completedEntries (p : Publisher ω) (id : RecordId) : List CompletedEntry :=
  match p.record? id with
  | some (.items r) =>
    let stream := (p.stream? r.stream).getD default
    if r.final then [⟨stream.path, stream.label, stream.errors⟩] else []
  | some (.fragment r) => [⟨r.path, r.label, r.errors⟩]
  | _ => []

theorem Alike.completedEntries (h : p.Alike q) (id : RecordId) : q.completedEntries id = p.completedEntries id := by
  have hs : ∀ stream, q.stream? stream = p.stream? stream := fun stream => by unfold stream?; rw [h.streams]
  cases hr : p.record? id with
  | none =>
    have hr' := h.records id
    rw [hr, Option.map_none, Option.map_eq_none_iff] at hr'
    simp [Publisher.completedEntries, hr, hr']
  | some r =>
    obtain ⟨r', hr', hout⟩ := h.record? hr
    unfold Publisher.completedEntries
    rw [hr, hr']
    cases r <;> cases r' <;> simp_all [Record.outline]

/-- A set of fields that is there is replaced like any other. -/
private theorem modifyRecord_fieldSet {r : FieldSetRecord} (hr : p.record? id = some (.fieldSet r)) :
    (p.modifyRecord id fun _ => .fieldSet { r with sent := true, data := none, errors := [] }) =
      p.modifyRecord id fun
        | .fieldSet r => .fieldSet { r with sent := true, data := none, errors := [] }
        | r => r := by
  refine modifyRecord_congr fun r' hr' => ?_
  rw [hr] at hr'
  cases hr'
  rfl

private theorem sendFieldSet_fst (label : Option String) (entries : List IncrementalEntry) (id : RecordId)
    (h : p.Sound) :
    (sendFieldSet label (p, entries) id).1.Sound ∧ p.Alike (sendFieldSet label (p, entries) id).1 ∧
      (sendFieldSet label (p, entries) id).1.pending = p.pending ∧
      (sendFieldSet label (p, entries) id).1.released = p.released := by
  unfold sendFieldSet
  dsimp only
  split
  · rename_i r hr
    split
    · exact ⟨h, Alike.refl p, rfl, rfl⟩
    · refine ⟨?_, Alike.modifyRecord fun r' hr' => ?_, rfl, rfl⟩
      · rw [modifyRecord_fieldSet hr]
        refine Sound.modify (n := 0) h (fun r => ?_) (fun r => ?_) (fun r => ?_) fun r _ hready => ?_
        · cases r
          case fieldSet r => exact .fieldSet rfl rfl fun _ => rfl
          all_goals exact Record.Grows.refl _
        · cases r <;> rfl
        · cases r <;> exact List.Subset.refl _
        · cases r <;> exact hready
      · rw [hr] at hr'
        cases hr'
        rfl
  · exact ⟨h, Alike.refl p, rfl, rfl⟩

private theorem foldl_sendFieldSet (label : Option String) (sets : List RecordId) (entries : List IncrementalEntry)
    (h : p.Sound) : (sets.foldl (sendFieldSet label) (p, entries)).1.Sound ∧
      p.Alike (sets.foldl (sendFieldSet label) (p, entries)).1 ∧
      (sets.foldl (sendFieldSet label) (p, entries)).1.pending = p.pending ∧
      (sets.foldl (sendFieldSet label) (p, entries)).1.released = p.released := by
  induction sets generalizing p entries with
  | nil => exact ⟨h, Alike.refl p, rfl, rfl⟩
  | cons id rest ih =>
    obtain ⟨hs, ha, hp, hr⟩ := sendFieldSet_fst label entries id h
    obtain ⟨hs', ha', hp', hr'⟩ := ih (sendFieldSet label (p, entries) id).2 hs
    exact ⟨hs', ha.trans ha', hp'.trans hp, hr'.trans hr⟩

theorem Sound.deliver (h : p.Sound) (id : RecordId) :
    (p.deliver id).1.Sound ∧ p.Alike (p.deliver id).1 ∧ (p.deliver id).1.pending = p.pending ∧
      (p.deliver id).1.released = p.released ∧ (p.deliver id).2.2 = p.completedEntries id := by
  unfold Publisher.deliver Publisher.completedEntries
  cases hr : p.record? id with
  | none => exact ⟨h, Alike.refl p, rfl, rfl, rfl⟩
  | some r =>
    cases r with
    | initial => exact ⟨h, Alike.refl p, rfl, rfl, rfl⟩
    | fieldSet => exact ⟨h, Alike.refl p, rfl, rfl, rfl⟩
    | fragment r =>
      dsimp only
      split
      · exact ⟨h, Alike.refl p, rfl, rfl, rfl⟩
      · obtain ⟨hs, ha, hp, hr⟩ := foldl_sendFieldSet r.label r.fieldSets [] h
        exact ⟨hs, ha, hp, hr, rfl⟩
    | items r =>
      dsimp only
      split
      · exact ⟨h, Alike.refl p, rfl, rfl, rfl⟩
      · refine ⟨?_, Alike.modifyRecord fun r' _ => ?_, rfl, rfl, rfl⟩
        · exact Sound.modifyItems (n := 0) h
            (fun _ => .items rfl rfl (.refl _) (fun h => h) (fun h => h) fun h => h) (fun _ => rfl) fun _ => rfl
        · cases r' <;> rfl

private theorem foldl_deliverNext (ids : List RecordId) (incremental : List IncrementalEntry)
    (completed : List CompletedEntry) (h : p.Sound) :
    (ids.foldl deliverNext (p, incremental, completed)).1.Sound ∧
      p.Alike (ids.foldl deliverNext (p, incremental, completed)).1 ∧
      (∀ j, j ∈ (ids.foldl deliverNext (p, incremental, completed)).1.pending ↔
        j ∈ p.pending ∨ ∃ id ∈ ids, p.Follows id j) ∧
      (∀ j ∈ (ids.foldl deliverNext (p, incremental, completed)).1.released,
        j ∈ p.released ∨ ∃ id ∈ ids, p.Follows id j) ∧
      (ids.foldl deliverNext (p, incremental, completed)).2.2 = completed ++ ids.flatMap p.completedEntries := by
  induction ids generalizing p incremental completed with
  | nil => exact ⟨h, Alike.refl p, by simp, fun j hj => Or.inl hj, by simp⟩
  | cons id rest ih =>
    obtain ⟨hs₁, ha₁, hp₁, hr₁⟩ := h.publishChildren id
    obtain ⟨hs₂, ha₂, hp₂, hr₂, hc₂⟩ := hs₁.deliver id
    obtain ⟨hs, ha, hp, hr, hc⟩ := ih (incremental ++ ((p.publishChildren id).deliver id).2.1)
      (completed ++ ((p.publishChildren id).deliver id).2.2) hs₂
    have ha' := ha₁.trans ha₂
    have hfollows : ∀ parent child,
        ((p.publishChildren id).deliver id).1.Follows parent child ↔ p.Follows parent child :=
      fun parent child => ⟨fun hf => ha'.symm.follows hf, fun hf => ha'.follows hf⟩
    refine ⟨hs, ha'.trans ha, fun j => ?_, fun j hj => ?_, ?_⟩
    · refine (hp j).trans ?_
      rw [hp₂, hp₁]
      simp only [hfollows, List.mem_cons, or_and_right, exists_or, exists_eq_left, or_assoc]
    · rcases hr j hj with hj | ⟨parent, hparent, hf⟩
      · rw [hr₂] at hj
        rcases hr₁ j hj with hj | hf
        · exact Or.inl hj
        · exact Or.inr ⟨id, List.mem_cons_self, hf⟩
      · exact Or.inr ⟨parent, List.mem_cons_of_mem _ hparent, (hfollows parent j).1 hf⟩
    · refine hc.trans ?_
      rw [hc₂, ha₁.completedEntries, List.flatMap_cons, List.append_assoc]
      congr 2
      exact congrArg (rest.flatMap ·) (funext ha'.completedEntries)

/-- What a result does to the publisher. -/
structure Handled (p q : Publisher ω) (result : Option SubsequentResult) : Prop where
  sound : q.Sound
  alike : p.Alike q
  pending : ∀ id, id ∈ q.pending ↔ id ∈ p.pending ∧ id ∉ p.released ∨ ∃ parent ∈ p.released, p.Follows parent id
  released : ∀ id ∈ q.released, ∃ parent ∈ p.released, p.Follows parent id
  completed : ∀ r, result = some r → r.completed = p.released.flatMap p.completedEntries
  hasNext : ∀ r, result = some r → r.hasNext = !q.pending.isEmpty
  silent : result = none → p.released.flatMap p.completedEntries = [] ∧ (p.released ≠ [] → q.pending ≠ [])

theorem Sound.nextResult? (h : p.Sound) : p.Handled p.nextResult?.1 p.nextResult?.2 := by
  unfold Publisher.nextResult?
  split
  · rename_i hnil
    rw [List.isEmpty_iff] at hnil
    refine ⟨h, Alike.refl p, ?_, ?_, ?_, ?_, ?_⟩ <;> simp [hnil]
  · have h₀ : Sound { p with released := [], pending := p.pending.filter (· ∉ p.released) } := by
      refine ⟨⟨h.linked.children, h.linked.fragments, h.linked.unfinished, h.linked.streams⟩,
        h.prompt.nodup.filter _, List.nodup_nil, fun id hid => ?_, by simp, by simp, fun id r hid hr hready => ?_⟩
      · exact h.prompt.deliverable id (List.mem_of_mem_filter hid)
      · obtain ⟨hid, hnot⟩ := List.mem_filter.1 hid
        exact absurd (h.prompt.ready id r hid hr hready) (by simpa using hnot)
    obtain ⟨hs, ha, hp, hr, hc⟩ := foldl_deliverNext p.released [] [] h₀
    have hp' : ∀ id, id ∈ (p.released.foldl deliverNext
        ({ p with released := [], pending := p.pending.filter (· ∉ p.released) }, [], [])).1.pending ↔
        id ∈ p.pending ∧ id ∉ p.released ∨ ∃ parent ∈ p.released, p.Follows parent id := by
      intro id
      rw [hp id, List.mem_filter]
      simp only [decide_not, Bool.not_eq_eq_eq_not, Bool.not_true, decide_eq_false_iff_not]
      rfl
    have ha' : p.Alike (p.released.foldl deliverNext
        ({ p with released := [], pending := p.pending.filter (· ∉ p.released) }, [], [])).1 :=
      ⟨ha.records, ha.streams, ha.inbox, ha.closed⟩
    have hr' : ∀ id ∈ (p.released.foldl deliverNext
        ({ p with released := [], pending := p.pending.filter (· ∉ p.released) }, [], [])).1.released,
        ∃ parent ∈ p.released, p.Follows parent id := by
      intro id hid
      rcases hr id hid with hid | hf
      · exact absurd hid (by simp)
      · exact hf
    have hc' : (p.released.foldl deliverNext
        ({ p with released := [], pending := p.pending.filter (· ∉ p.released) }, [], [])).2.2 =
        p.released.flatMap p.completedEntries := hc
    unfold Publisher.processReleased
    dsimp only
    split
    · rename_i hempty
      simp only [Bool.and_eq_true, List.isEmpty_iff] at hempty
      refine ⟨hs, ha', hp', hr', by simp, by simp, fun _ => ⟨hc'.symm.trans hempty.1.2, fun _ hnil => ?_⟩⟩
      rw [hnil] at hempty
      exact absurd hempty.2 (by simp)
    · refine ⟨hs, ha', hp', hr', fun r heq => ?_, fun r heq => ?_, by simp⟩
      · cases heq
        exact hc'
      · cases heq
        rfl

/-! ### The answer -/

/-- Taking the errors of the initial result changes nothing but what is sent. -/
theorem Sound.takeErrors (h : p.Sound) : p.takeErrors.1.Sound ∧ p.Alike p.takeErrors.1 := by
  refine ⟨?_, Alike.modifyRecord fun r _ => ?_⟩
  · refine Sound.modify (n := 0) h (fun r => ?_) (fun r => ?_) (fun r => ?_) fun r _ hready => ?_
    · cases r
      case initial r => exact .initial (.refl _)
      all_goals exact Record.Grows.refl _
    · cases r <;> rfl
    · cases r <;> exact List.Subset.refl _
    · cases r <;> exact hready
  · cases r <;> rfl

end Publisher

end GraphQL
