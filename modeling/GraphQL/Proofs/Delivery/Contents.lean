import GraphQL.Proofs.Delivery.Entries
import GraphQL.Proofs.Delivery.Losses
import GraphQL.Proofs.Delivery.Updates

/-!
# What records have to deliver

The content of a record is what it delivers: the data of a set of fields, or items with their place in a stream.  Links
between records, errors and filtering leave all contents as they are (`Publisher.content_modifyRecord`), a new record has
a content of its own, and a record that is completed gets a new one.
-/

namespace GraphQL

/-- Items with their place in a stream, and whether the stream goes on after them. -/
structure Batch where
  stream : StreamId
  path : Path
  items : List Json := []
  completed : Bool := false
  final : Bool := false
  endsStream : Bool := false

/-- What a record has to deliver. -/
inductive Content where
  | nothing
  | fields (path : Path) (data : Option Json)
  | batch (batch : Batch)

/-- The items of a record. -/
def ItemsRecord.batch (r : ItemsRecord) : Batch := ⟨r.stream, r.path, r.items, r.completed, r.final, r.endsStream⟩

/-- What a record has to deliver. -/
def Record.content : Record → Content
  | fieldSet r => .fields r.path r.data
  | items r => .batch r.batch
  | _ => .nothing

namespace Content

/-- The content after it was sent. -/
def emptied : Content → Content
  | fields path _ => fields path none
  | batch b => batch { b with items := [] }
  | nothing => nothing

end Content

theorem Record.content_emptied (r : Record) : r.emptied.content = r.content.emptied := by cases r <;> rfl

namespace Publisher

variable {ω : Type} {p q : Publisher ω} {id : RecordId}

/-- What a record has to deliver. -/
def content (p : Publisher ω) (id : RecordId) : Content := p.facet Record.content .nothing id

theorem content_of_record? {r : Record} (h : p.record? id = some r) : p.content id = r.content := by
  unfold content facet
  rw [h]
  rfl

theorem content_eq_batch {b : Batch} : p.content id = .batch b ↔ ∃ r, p.record? id = some (.items r) ∧ r.batch = b := by
  unfold content facet
  cases hr : p.record? id with
  | none => simp
  | some r => cases r <;> simp [Record.content]

theorem content_eq_fields {path : Path} {data : Option Json} : p.content id = .fields path data ↔
    ∃ r, p.record? id = some (.fieldSet r) ∧ r.path = path ∧ r.data = data := by
  unfold content facet
  cases hr : p.record? id with
  | none => simp
  | some r => cases r <;> simp [Record.content]

/-! ### Changes that leave all contents -/

theorem content_addChild (p : Publisher ω) (parent child j : RecordId) :
    (p.addChild parent child).content j = p.content j :=
  facet_foldl (fun _ _ => facet_modifyRecord fun r => by cases r <;> rfl) _

theorem content_addFragment (p : Publisher ω) (path : Path) (label : Option String) (parent j : RecordId) :
    (p.addFragment path label parent).1.content j = p.content j :=
  (content_addChild _ _ _ _).trans (facet_push rfl)

theorem content_addError (p : Publisher ω) (id : RecordId) (e : Error) (j : RecordId) :
    (p.addError id e).content j = p.content j :=
  facet_modifyRecord fun r => by cases r <;> rfl

theorem content_filter (p : Publisher ω) (path : Path) (id j : RecordId) :
    (p.filter path id).1.content j = p.content j :=
  facet_foldl (fun _ _ => facet_modifyRecord fun r => by cases r <;> rfl) _

theorem content_release (p : Publisher ω) (id j : RecordId) : (p.release id).content j = p.content j :=
  facet_of_record? (record?_release p id j)

theorem content_finishFieldSet (p : Publisher ω) (set fragment j : RecordId) :
    (p.finishFieldSet set fragment).content j = p.content j :=
  facet_modifyRecord fun r => by cases r <;> rfl

theorem content_failFieldSet (p : Publisher ω) (set : RecordId) (e : Error) (j : RecordId) :
    (p.failFieldSet set e).content j = p.content j :=
  facet_foldl (fun p fragment => (content_release _ fragment j).trans
    ((facet_modifyRecord fun r => by cases r <;> rfl).trans (content_finishFieldSet p set fragment j))) _

theorem content_same {q : Publisher ω} (h : p.Same q) (j : RecordId) : q.content j = p.content j :=
  facet_of_record? (h.record? j)

/-! ### New contents -/

/-- A new record has its own content. -/
theorem content_push (p : Publisher ω) (r : Record) (j : RecordId) :
    (p.push r).1.content j = if j = ⟨p.records.size⟩ then r.content else p.content j := by
  unfold content facet
  rw [record?_push]
  split <;> rfl

theorem content_addFieldSet (p : Publisher ω) (path : Path) (fragments : List RecordId) (j : RecordId) :
    (p.addFieldSet path fragments).1.content j =
      if j = ⟨p.records.size⟩ then .fields path none else p.content j :=
  (facet_foldl (fun _ _ => facet_modifyRecord fun r => by cases r <;> rfl) _).trans (content_push p _ j)

theorem content_addItems (p : Publisher ω) (stream : StreamId) (path : Path) (parent j : RecordId) :
    (p.addItems stream path parent).1.content j =
      if j = ⟨p.records.size⟩ then .batch { stream := stream, path := path } else p.content j :=
  (content_addChild _ _ _ _).trans (content_push p _ j)

/-- A set of fields gets its data. -/
theorem content_completeFieldSet {r : FieldSetRecord} (h : p.record? id = some (.fieldSet r)) (data : Json) (j : RecordId) :
    (p.completeFieldSet id data).content j = if j = id then .fields r.path (some data) else p.content j := by
  refine (facet_foldl (fun q fragment => ?_) _).trans ?_
  · have hfinish := content_finishFieldSet q id fragment j
    dsimp only
    split
    · split
      · exact (content_release _ fragment j).trans hfinish
      · exact hfinish
    · exact hfinish
  · show facet _ _ _ _ = _
    unfold content facet
    rw [record?_modifyRecord]
    by_cases heq : j = id
    · subst heq
      rw [if_pos rfl, if_pos rfl, h]
      rfl
    · rw [if_neg (Ne.symm heq), if_neg heq]

section Items

variable {r : ItemsRecord} (h : p.record? id = some (.items r))
include h

/-- A record of items is changed. -/
theorem content_modifyItems (f : ItemsRecord → ItemsRecord) (j : RecordId) :
    (p.modifyItems id f).content j = if j = id then .batch (f r).batch else p.content j := by
  unfold content facet modifyItems
  rw [record?_modifyRecord]
  by_cases heq : j = id
  · subst heq
    rw [if_pos rfl, if_pos rfl, h]
    rfl
  · rw [if_neg (Ne.symm heq), if_neg heq]

theorem content_setFinal (j : RecordId) :
    (p.setFinal id).content j = if j = id then .batch { r.batch with final := true } else p.content j :=
  content_modifyItems h _ j

theorem content_completeItems (items : List Json) (j : RecordId) : (p.completeItems id items).content j =
    if j = id then .batch { r.batch with items := items, completed := true } else p.content j :=
  (content_release _ _ _).trans (content_modifyItems h _ j)

theorem content_retireItems (j : RecordId) : (p.retireItems id).content j =
    if j = id then .batch { r.batch with endsStream := true, completed := true } else p.content j :=
  (content_release _ _ _).trans (content_modifyItems h _ j)

theorem content_failItems (e : Error) (j : RecordId) : (p.failItems id e).1.content j =
    if j = id then .batch { r.batch with final := true, completed := true } else p.content j := by
  unfold failItems
  rw [h]
  exact (content_release _ _ _).trans ((facet_of_record? rfl).trans (content_modifyItems h _ j))

/-- The stream ends before a record. -/
theorem content_endItems (j : RecordId) : ((p.setEnd id).completeItems id []).content j =
    if j = id then .batch { r.batch with items := [], completed := true, final := true, endsStream := true }
    else p.content j := by
  rw [content_completeItems (record?_setEnd h)]
  split
  · rfl
  · rename_i hne
    exact (content_modifyItems h _ j).trans (if_neg hne)

end Items

/-! ### Results -/

/-- A look empties what it sends. -/
theorem Sound.content_nextResult? (h : p.Sound) (honce : p.ListsOnce) (j : RecordId) :
    p.nextResult?.1.content j = if j ∈ p.sent.map Prod.fst then (p.content j).emptied else p.content j := by
  unfold content facet
  rw [h.record?_nextResult? honce]
  split
  · cases p.record? j with
    | none => rfl
    | some r => exact r.content_emptied
  · rfl

end Publisher

end GraphQL
