import GraphQL.Delivery.Publisher
import Mathlib.Data.List.Nodup

/-!
# Looking up records after an operation

Every operation of the publisher adds a record or changes records in place.  The lemmas here say which record is found
under a number afterwards (`record?_push`, `record?_modifyRecord`, and `record?_foldl_modify` for one change made to
several records), and that what is pending, released or in the inbox stays as it was.
-/

namespace GraphQL

namespace RecordId

theorem index_inj {a b : RecordId} : a.index = b.index ↔ a = b := by
  cases a; cases b; simp

end RecordId

theorem mem_addNew {α : Type} [DecidableEq α] {xs : List α} {x y : α} : y ∈ addNew xs x ↔ y ∈ xs ∨ y = x := by
  unfold addNew
  split
  · rename_i h
    constructor
    · exact Or.inl
    · rintro (h' | rfl)
      · exact h'
      · exact h
  · simp

theorem nodup_addNew {α : Type} [DecidableEq α] {xs : List α} {x : α} (h : xs.Nodup) : (addNew xs x).Nodup := by
  unfold addNew
  split
  · exact h
  · rename_i hx
    exact List.nodup_append.2 ⟨h, List.nodup_singleton x, by rintro a ha b hb rfl; simp_all⟩

theorem addNew_addNew {α : Type} [DecidableEq α] (xs : List α) (x : α) :
    addNew (addNew xs x) x = addNew xs x := by
  have h : x ∈ addNew xs x := mem_addNew.2 (Or.inr rfl)
  show (if x ∈ addNew xs x then addNew xs x else addNew xs x ++ [x]) = addNew xs x
  exact if_pos h

theorem Record.addChild_addChild (child : RecordId) (r : Record) :
    Record.addChild child (Record.addChild child r) = Record.addChild child r := by
  cases r <;> simp [Record.addChild, addNew_addNew]

namespace Publisher

variable {ω : Type}

theorem record?_eq_none {p : Publisher ω} {id : RecordId} : p.record? id = none ↔ p.records.size ≤ id.index := by
  simp [record?]

theorem lt_size_of_record? {p : Publisher ω} {id : RecordId} {r : Record} (h : p.record? id = some r) :
    id.index < p.records.size := by
  rcases Nat.lt_or_ge id.index p.records.size with hlt | hge
  · exact hlt
  · rw [record?_eq_none.2 hge] at h
    exact absurd h (by simp)

theorem exists_record? {p : Publisher ω} {id : RecordId} (h : id.index < p.records.size) :
    ∃ r, p.record? id = some r :=
  ⟨_, Array.getElem?_eq_getElem h⟩

/-! ### One change -/

@[simp, grind =]
theorem record?_modifyRecord (p : Publisher ω) (id j : RecordId) (f : Record → Record) :
    (p.modifyRecord id f).record? j = if id = j then (p.record? j).map f else p.record? j := by
  unfold record? modifyRecord
  rw [Array.getElem?_modify]
  simp only [RecordId.index_inj]

@[simp, grind =]
theorem size_modifyRecord (p : Publisher ω) (id : RecordId) (f : Record → Record) :
    (p.modifyRecord id f).records.size = p.records.size := by
  simp [modifyRecord]

/-- Only what the change does to the record matters. -/
theorem modifyRecord_congr {p : Publisher ω} {id : RecordId} {f g : Record → Record}
    (h : ∀ r, p.record? id = some r → f r = g r) : p.modifyRecord id f = p.modifyRecord id g := by
  unfold modifyRecord
  congr 1
  refine Array.ext_getElem? fun i => ?_
  rw [Array.getElem?_modify, Array.getElem?_modify]
  split
  · rename_i heq
    subst heq
    cases hr : p.records[id.index]? with
    | none => rfl
    | some r => exact congrArg some (h r hr)
  · rfl

@[simp, grind =]
theorem pending_modifyRecord (p : Publisher ω) (id : RecordId) (f : Record → Record) :
    (p.modifyRecord id f).pending = p.pending := rfl

@[simp, grind =]
theorem released_modifyRecord (p : Publisher ω) (id : RecordId) (f : Record → Record) :
    (p.modifyRecord id f).released = p.released := rfl

@[simp, grind =]
theorem streams_modifyRecord (p : Publisher ω) (id : RecordId) (f : Record → Record) :
    (p.modifyRecord id f).streams = p.streams := rfl

@[simp, grind =]
theorem inbox_modifyRecord (p : Publisher ω) (id : RecordId) (f : Record → Record) :
    (p.modifyRecord id f).inbox = p.inbox := rfl

@[simp, grind =]
theorem closed_modifyRecord (p : Publisher ω) (id : RecordId) (f : Record → Record) :
    (p.modifyRecord id f).closed = p.closed := rfl

theorem record?_push (p : Publisher ω) (r : Record) (j : RecordId) :
    (p.push r).1.record? j = if j = ⟨p.records.size⟩ then some r else p.record? j := by
  unfold record? push
  rw [Array.getElem?_push]
  simp only [← RecordId.index_inj]

/-! ### One change made to several records -/

/-- A change that has no further effect when it is made again is made once to each of the records. -/
theorem record?_foldl_modify {f : Record → Record} (hf : ∀ r, f (f r) = f r) (ids : List RecordId)
    (p : Publisher ω) (j : RecordId) :
    (ids.foldl (fun p id => p.modifyRecord id f) p).record? j =
      if j ∈ ids then (p.record? j).map f else p.record? j := by
  induction ids generalizing p with
  | nil => simp
  | cons id rest ih =>
    rw [List.foldl_cons, ih]
    by_cases hid : id = j
    · subst hid
      have hff : f ∘ f = f := funext hf
      simp [hff]
    · have hne : j ≠ id := fun h => hid h.symm
      simp [hid, hne]

/-! ### New records -/

/-- The records that a child of `parent` is attached to. -/
def attachedTo (p : Publisher ω) (parent : RecordId) : List RecordId :=
  match p.record? parent with
  | some (.fieldSet r) => r.fragments
  | _ => [parent]

theorem addChild_eq (p : Publisher ω) (parent child : RecordId) :
    p.addChild parent child =
      (p.attachedTo parent).foldl (fun p id => p.modifyRecord id (Record.addChild child)) p := rfl

theorem attachedTo_push {p : Publisher ω} {parent : RecordId} (h : parent.index < p.records.size) (r : Record) :
    (p.push r).1.attachedTo parent = p.attachedTo parent := by
  have hne : parent ≠ ⟨p.records.size⟩ := fun heq => by rw [heq] at h; exact Nat.lt_irrefl _ h
  unfold attachedTo
  rw [record?_push, if_neg hne]

/-- A new record that is attached to others. -/
theorem record?_push_addChild {p : Publisher ω} {parent : RecordId} (h : parent.index < p.records.size)
    (r : Record) (j : RecordId) :
    ((p.push r).1.addChild parent ⟨p.records.size⟩).record? j =
      if j ∈ p.attachedTo parent then ((p.push r).1.record? j).map (Record.addChild ⟨p.records.size⟩)
      else (p.push r).1.record? j := by
  rw [addChild_eq, record?_foldl_modify (Record.addChild_addChild _), attachedTo_push h]

theorem stream?_addStream (p : Publisher ω) (path : Path) (label : Option String) (hook : Option HookId) :
    (p.addStream path label hook).1.stream? (p.addStream path label hook).2 =
      some { path := path, label := label, hook := hook } :=
  Array.getElem?_push_size

/-! ### Items -/

theorem record?_release (p : Publisher ω) (id j : RecordId) : (p.release id).record? j = p.record? j := by
  unfold release
  split <;> rfl

section Items

variable {p : Publisher ω} {id : RecordId} {r : ItemsRecord}

theorem record?_modifyItems (h : p.record? id = some (.items r)) (g : ItemsRecord → ItemsRecord) :
    (p.modifyItems id g).record? id = some (.items (g r)) := by
  unfold modifyItems
  rw [record?_modifyRecord, if_pos rfl, h]
  rfl

theorem record?_completeItems (h : p.record? id = some (.items r)) (items : List Json) :
    (p.completeItems id items).record? id = some (.items { r with items := items, completed := true }) :=
  (record?_release _ id id).trans (record?_modifyItems h _)

theorem record?_retireItems (h : p.record? id = some (.items r)) :
    (p.retireItems id).record? id = some (.items { r with endsStream := true, completed := true }) :=
  (record?_release _ id id).trans (record?_modifyItems h _)

theorem record?_setEnd (h : p.record? id = some (.items r)) :
    (p.setEnd id).record? id = some (.items { r with endsStream := true, final := true }) :=
  record?_modifyItems h _

theorem record?_failItems (h : p.record? id = some (.items r)) (e : Error) :
    (p.failItems id e).1.record? id = some (.items { r with final := true, completed := true }) := by
  unfold failItems
  split
  · exact (record?_release _ id id).trans (record?_modifyItems h _)
  · rename_i hnone
    exact absurd h (hnone r)

/-- The stream of items that failed is to be closed. -/
theorem mem_failItems (h : p.record? id = some (.items r)) (e : Error) : r.stream ∈ (p.failItems id e).2 := by
  unfold failItems
  rw [h]
  exact List.mem_singleton_self _

end Items

end Publisher

end GraphQL
