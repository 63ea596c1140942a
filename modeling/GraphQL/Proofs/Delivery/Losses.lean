import GraphQL.Proofs.Delivery.Entries
import GraphQL.Proofs.Delivery.Below

/-!
# What is lost

A record is lost when it is filtered, and a fragment fails with its sets of fields.  Both happen in one way only: when a
value becomes null while a record is completed, exactly those records are filtered that come after that record and
deliver something at or below the path of the value (`filtered_filter`), and when a set of fields fails, exactly its
fragments fail (`errors_failFieldSet`).  All other changes leave the standing of every record as it is.
-/

namespace GraphQL

/-- What has become of a record: whether it is filtered, the errors with which it failed if it is a fragment, and whether
it was sent if it is a set of fields. -/
structure Standing where
  filtered : Bool := false
  errors : List Error := []
  sent : Bool := false

/-- What has become of a record. -/
def Record.standing : Record → Standing
  | initial _ => {}
  | fragment r => { filtered := r.filtered, errors := r.errors }
  | fieldSet r => { sent := r.sent }
  | items r => { filtered := r.filtered }

/-- The sets of fields of a fragment, in their order. -/
def Record.fieldSets : Record → List RecordId
  | fragment r => r.fieldSets
  | _ => []

/-- The fragments of a set of fields. -/
def Record.fragments : Record → List RecordId
  | fieldSet r => r.fragments
  | _ => []

namespace Publisher

variable {ω α : Type} {p q : Publisher ω} {id j : RecordId} {g : Record → α} {a : α}

/-- One side of a record, with a value for records that are not there. -/
def facet (p : Publisher ω) (g : Record → α) (a : α) (id : RecordId) : α := ((p.record? id).map g).getD a

/-- What has become of a record. -/
def standing (p : Publisher ω) (id : RecordId) : Standing := p.facet Record.standing {} id

theorem facet_of_record? (h : q.record? j = p.record? j) : q.facet g a j = p.facet g a j := by
  unfold facet
  rw [h]

theorem facet_modifyRecord_at {f : Record → Record} (hf : ∀ r, p.record? id = some r → g (f r) = g r) :
    (p.modifyRecord id f).facet g a j = p.facet g a j := by
  unfold facet
  rw [record?_modifyRecord]
  split
  · rename_i heq
    subst heq
    cases hr : p.record? id with
    | none => rfl
    | some r => exact hf r hr
  · rfl

theorem facet_modifyRecord {f : Record → Record} (hf : ∀ r, g (f r) = g r) :
    (p.modifyRecord id f).facet g a j = p.facet g a j :=
  facet_modifyRecord_at fun r _ => hf r

theorem facet_push {r : Record} (hr : g r = a) : (p.push r).1.facet g a j = p.facet g a j := by
  unfold facet
  rw [record?_push]
  split
  · rename_i heq
    have hnone : p.record? j = none := record?_eq_none.2 (Nat.le_of_eq (congrArg RecordId.index heq).symm)
    rw [hnone]
    exact hr
  · rfl

theorem facet_foldl {β : Type} {step : Publisher ω → β → Publisher ω}
    (hstep : ∀ q b, (step q b).facet g a j = q.facet g a j) (bs : List β) :
    (bs.foldl step p).facet g a j = p.facet g a j :=
  List.foldlRecOn (motive := fun q : Publisher ω => q.facet g a j = p.facet g a j) bs _ rfl
    fun q hq b _ => (hstep q b).trans hq

/-! ### Sides that work does not change -/

/-- A side of records that does not change while records are completed. -/
structure Static (g : Record → α) : Prop where
  addChild : ∀ child r, g (r.addChild child) = g r
  data : ∀ r data, g (.fieldSet { r with data := data }) = g (.fieldSet r)
  unfinished : ∀ r unfinished, g (.fragment { r with unfinished := unfinished }) = g (.fragment r)
  items : ∀ r r' : ItemsRecord, r'.filtered = r.filtered → g (.items r') = g (.items r)
  addError : ∀ e r, (∀ f, r ≠ .fragment f) → g (r.addError e) = g r

theorem Static.standing : Static Record.standing := by
  refine ⟨fun child r => ?_, fun _ _ => rfl, fun _ _ => rfl, fun r r' h => ?_, fun e r hnot => ?_⟩
  · cases r <;> rfl
  · simp [Record.standing, h]
  · cases r
    case fragment f => exact absurd rfl (hnot f)
    all_goals rfl

theorem Static.fieldSets : Static Record.fieldSets := by
  refine ⟨fun child r => ?_, fun _ _ => rfl, fun _ _ => rfl, fun _ _ _ => rfl, fun e r _ => ?_⟩ <;> cases r <;> rfl

theorem Static.fragments : Static Record.fragments := by
  refine ⟨fun child r => ?_, fun _ _ => rfl, fun _ _ => rfl, fun _ _ _ => rfl, fun e r _ => ?_⟩ <;> cases r <;> rfl

/-- Two sides at once. -/
theorem Static.prod {β : Type} {g' : Record → β} (h : Static g) (h' : Static g') : Static fun r => (g r, g' r) :=
  ⟨fun child r => Prod.ext (h.addChild child r) (h'.addChild child r),
    fun r data => Prod.ext (h.data r data) (h'.data r data),
    fun r sets => Prod.ext (h.unfinished r sets) (h'.unfinished r sets),
    fun r r' hf => Prod.ext (h.items r r' hf) (h'.items r r' hf),
    fun e r hnot => Prod.ext (h.addError e r hnot) (h'.addError e r hnot)⟩

theorem facet_prod {β : Type} (g' : Record → β) (b : β) :
    p.facet (fun r => (g r, g' r)) (a, b) j = (p.facet g a j, p.facet g' b j) := by
  unfold facet
  cases p.record? j <;> rfl

namespace Static

variable (h : Static g)
include h

theorem facet_addChild (p : Publisher ω) (parent child : RecordId) :
    (p.addChild parent child).facet g a j = p.facet g a j :=
  facet_foldl (fun _ _ => facet_modifyRecord fun r => h.addChild child r) _

theorem facet_finishFieldSet (p : Publisher ω) (set fragment : RecordId) :
    (p.finishFieldSet set fragment).facet g a j = p.facet g a j :=
  facet_modifyRecord fun r => by
    cases r
    case fragment r => exact h.unfinished r _
    all_goals rfl

omit h in
theorem facet_release (p : Publisher ω) (id : RecordId) : (p.release id).facet g a j = p.facet g a j :=
  facet_of_record? (record?_release p id j)

theorem facet_modifyItems (p : Publisher ω) (id : RecordId) {f : ItemsRecord → ItemsRecord}
    (hf : ∀ r, (f r).filtered = r.filtered) : (p.modifyItems id f).facet g a j = p.facet g a j :=
  facet_modifyRecord fun r => by
    cases r
    case items r => exact h.items r (f r) (hf r)
    all_goals rfl

theorem facet_completeFieldSet (p : Publisher ω) (id : RecordId) (data : Json) :
    (p.completeFieldSet id data).facet g a j = p.facet g a j := by
  refine (facet_foldl (fun q fragment => ?_) _).trans (facet_modifyRecord fun r => ?_)
  · have hfinish := h.facet_finishFieldSet (a := a) (j := j) q id fragment
    dsimp only
    split
    · split
      · exact (facet_release _ fragment).trans hfinish
      · exact hfinish
    · exact hfinish
  · cases r
    case fieldSet r => exact h.data r (some data)
    all_goals rfl

theorem facet_completeItems (p : Publisher ω) (id : RecordId) (items : List Json) :
    (p.completeItems id items).facet g a j = p.facet g a j :=
  (facet_release _ id).trans (h.facet_modifyItems p id fun _ => rfl)

theorem facet_retireItems (p : Publisher ω) (id : RecordId) : (p.retireItems id).facet g a j = p.facet g a j :=
  (facet_release _ id).trans (h.facet_modifyItems p id fun _ => rfl)

theorem facet_failItems (p : Publisher ω) (id : RecordId) (e : Error) :
    (p.failItems id e).1.facet g a j = p.facet g a j := by
  unfold failItems
  split
  · refine (facet_release _ id).trans (Eq.trans ?_ (h.facet_modifyItems p id
      (f := fun r => { r with final := true, completed := true }) fun _ => rfl))
    exact facet_of_record? rfl
  · rfl

theorem facet_addError (p : Publisher ω) (id : RecordId) (e : Error)
    (hid : ∀ r, p.record? id = some r → ∀ f, r ≠ .fragment f) : (p.addError id e).facet g a j = p.facet g a j :=
  facet_modifyRecord_at fun r hr => h.addError e r (hid r hr)

end Static

/-! ### A value becomes null -/

/-- A record comes after another one, or after a set of fields: it is a child of it, or comes after a child. -/
def ComesAfter (p : Publisher ω) (id k : RecordId) : Prop := ∃ child ∈ p.childrenOf id, p.Below child k

/-- The records that are lost with the value at a path that becomes null while a record is completed: those that come
after the record and deliver something at or below the path. -/
def Loses (p : Publisher ω) (path : Path) (id k : RecordId) : Prop := p.ComesAfter id k ∧ p.isUnder k path = true

theorem mem_childrenOf {child : RecordId} : child ∈ p.childrenOf id ↔ ∃ f ∈ p.attachedTo id, child ∈ p.kids f := by
  unfold childrenOf attachedTo kids
  cases hr : p.record? id with
  | none => simp [hr]
  | some r =>
    cases r with
    | fieldSet r => simp [List.mem_eraseDups]
    | _ => simp [hr]

/-- A fragment delivers something at or below a path if its own path leads there, or that of one of its sets of fields. -/
theorem isUnder_fragment {r : FragmentRecord} (hr : p.record? id = some (.fragment r)) (path : Path) :
    p.isUnder id path = true ↔ r.path.startsWith path = true ∨
      ∃ set ∈ r.fieldSets, ∃ s, p.record? set = some (.fieldSet s) ∧ s.path.startsWith path = true := by
  unfold isUnder
  rw [hr]
  simp only [Bool.or_eq_true, List.any_eq_true]
  refine or_congr_right ⟨fun ⟨set, hset, hunder⟩ => ?_, fun ⟨set, hset, s, hs, hunder⟩ => ⟨set, hset, ?_⟩⟩
  · split at hunder
    · rename_i s hs
      exact ⟨set, hset, s, hs, hunder⟩
    · exact absurd hunder (by simp)
  · rw [hs]
    exact hunder

/-- Only items and fragments deliver something. -/
theorem isDeliverable_of_isUnder {path : Path} (h : p.isUnder id path = true) : p.IsDeliverable id := by
  unfold isUnder at h
  split at h
  · exact ⟨.items _, ‹_›, trivial⟩
  · exact ⟨.fragment _, ‹_›, trivial⟩
  · exact absurd h (by simp)

private theorem setFiltered_setFiltered (r : Record) : r.setFiltered.setFiltered = r.setFiltered := by cases r <;> rfl

theorem record?_filter (p : Publisher ω) (path : Path) (id k : RecordId) [Decidable (p.Loses path id k)] :
    (p.filter path id).1.record? k =
      if p.Loses path id k then (p.record? k).map Record.setFiltered else p.record? k := by
  show ((List.filter _ _).foldl (fun p id => p.modifyRecord id Record.setFiltered) p).record? k = _
  rw [record?_foldl_modify setFiltered_setFiltered]
  have hiff : k ∈ (p.descendants (p.childrenOf id)).filter (p.isUnder · path) ↔ p.Loses path id k := by
    rw [List.mem_filter, mem_descendants]
    rfl
  simp only [hiff]

/-- Exactly the records are filtered that were so, and those that are lost with the value. -/
theorem filtered_filter (p : Publisher ω) (path : Path) (id k : RecordId) :
    ((p.filter path id).1.standing k).filtered = true ↔ (p.standing k).filtered = true ∨ p.Loses path id k := by
  classical
  unfold standing facet
  rw [record?_filter]
  by_cases hloses : p.Loses path id k
  · obtain ⟨r, hr, hd⟩ := isDeliverable_of_isUnder hloses.2
    rw [if_pos hloses, hr]
    cases r with
    | fragment r => simp [Record.standing, Record.setFiltered, hloses]
    | items r => simp [Record.standing, Record.setFiltered, hloses]
    | _ => exact hd.elim
  · rw [if_neg hloses]
    simp [hloses]

theorem errors_filter (p : Publisher ω) (path : Path) (id k : RecordId) :
    ((p.filter path id).1.standing k).errors = (p.standing k).errors ∧
      ((p.filter path id).1.standing k).sent = (p.standing k).sent := by
  classical
  unfold standing facet
  rw [record?_filter]
  split
  · cases p.record? k with
    | none => exact ⟨rfl, rfl⟩
    | some r => cases r <;> exact ⟨rfl, rfl⟩
  · exact ⟨rfl, rfl⟩

/-- Exactly the streams are closed whose items are lost. -/
theorem mem_filter_streams {path : Path} {stream : StreamId} : stream ∈ (p.filter path id).2 ↔
    ∃ k r, p.Loses path id k ∧ p.record? k = some (.items r) ∧ r.stream = stream := by
  show stream ∈ (List.filterMap _ _).eraseDups ↔ _
  rw [List.mem_eraseDups, List.mem_filterMap]
  constructor
  · rintro ⟨k, hk, heq⟩
    split at heq
    · rename_i r hr
      cases heq
      obtain ⟨hk, hunder⟩ := List.mem_filter.1 hk
      exact ⟨k, r, ⟨mem_descendants.1 hk, hunder⟩, hr, rfl⟩
    · exact absurd heq (by simp)
  · rintro ⟨k, r, ⟨hafter, hunder⟩, hr, rfl⟩
    refine ⟨k, List.mem_filter.2 ⟨mem_descendants.2 hafter, hunder⟩, ?_⟩
    rw [hr]

/-! ### A set of fields fails -/

theorem mem_fragmentsOf {set fragment : RecordId} : fragment ∈ p.fragmentsOf set ↔ p.BelongsTo set fragment := by
  unfold fragmentsOf BelongsTo
  cases hr : p.record? set with
  | none => simp
  | some r => cases r <;> simp

/-- Exactly the fragments have failed that had so, and those of the set of fields. -/
theorem errors_failFieldSet (h : p.Linked) (set : RecordId) (e : Error) (k : RecordId) :
    (((p.failFieldSet set e).standing k).errors = [] ↔ (p.standing k).errors = [] ∧ ¬ p.BelongsTo set k) ∧
      ((p.failFieldSet set e).standing k).filtered = (p.standing k).filtered ∧
      ((p.failFieldSet set e).standing k).sent = (p.standing k).sent := by
  rw [← mem_fragmentsOf]
  have hfragments : ∀ f ∈ p.fragmentsOf set, p.IsFragment f := by
    intro f hf
    obtain ⟨r, hr, hmem⟩ := mem_fragmentsOf.1 hf
    exact (h.fragments set r hr f hmem).2
  unfold failFieldSet
  generalize p.fragmentsOf set = fragments at hfragments
  clear h
  induction fragments generalizing p with
  | nil => simp
  | cons f rest ih =>
    obtain ⟨r, hr⟩ := hfragments f List.mem_cons_self
    generalize hq : ((p.finishFieldSet set f).modifyFragment f fun r => { r with errors := r.errors ++ [e] }).release f = q
    -- the record after the first step
    have hrecord : ∀ j, q.record? j = if f = j then some (.fragment
        { r with unfinished := r.unfinished.filter (· ≠ set), errors := r.errors ++ [e] }) else p.record? j := by
      intro j
      rw [← hq, record?_release]
      unfold modifyFragment finishFieldSet modifyFragment
      rw [record?_modifyRecord, record?_modifyRecord]
      split
      · rename_i heq
        subst heq
        rw [hr]
        rfl
      · rfl
    have hrest : ∀ j ∈ rest, q.IsFragment j := by
      intro j hj
      obtain ⟨r', hr'⟩ := hfragments j (List.mem_cons_of_mem _ hj)
      by_cases heq : f = j
      · exact ⟨_, by rw [hrecord, if_pos heq]⟩
      · exact ⟨r', by rw [hrecord, if_neg heq]; exact hr'⟩
    have hstanding : q.standing k =
        if f = k then { p.standing k with errors := (p.standing k).errors ++ [e] } else p.standing k := by
      unfold standing facet
      rw [hrecord]
      split
      · rename_i heq
        subst heq
        rw [hr]
        rfl
      · rfl
    obtain ⟨herrors, hfiltered, hsent⟩ := ih hrest
    rw [List.foldl_cons]
    dsimp only
    rw [hq, herrors, hfiltered, hsent, hstanding]
    by_cases heq : f = k
    · subst heq
      simp
    · simp [heq, Ne.symm heq]

/-! ### A look for a result -/

/-- Each fragment lists its sets of fields: each once, and those that belong to it. -/
structure Listed (p : Publisher ω) : Prop where
  once : ∀ id, (p.facet Record.fieldSets [] id).Nodup
  sets : ∀ id set, set ∈ p.facet Record.fieldSets [] id ↔ id ∈ p.facet Record.fragments [] set

theorem Listed.listsOnce (h : p.Listed) : p.ListsOnce := by
  intro id r hr
  have honce := h.once id
  unfold facet at honce
  rw [hr] at honce
  exact honce

theorem Listed.mem_fieldSets (h : p.Listed) {set : RecordId} {r : FragmentRecord}
    (hr : p.record? id = some (.fragment r)) : set ∈ r.fieldSets ↔ p.BelongsTo set id := by
  have hsets := h.sets id set
  unfold facet at hsets
  rw [hr] at hsets
  refine hsets.trans ?_
  unfold BelongsTo
  cases hs : p.record? set with
  | none => simp
  | some s => cases s <;> simp [Record.fragments]

/-- A new set of fields is listed by its fragments. -/
theorem Listed.addFieldSet (h : p.Listed) (path : Path) {fragments : List RecordId}
    (hfragments : ∀ f ∈ fragments, p.IsFragment f) : (p.addFieldSet path fragments).1.Listed := by
  have hrecord : ∀ j, (p.addFieldSet path fragments).1.record? j =
      if j ∈ fragments then ((p.push (.fieldSet { path := path, fragments := fragments })).1.record? j).map fun
        | .fragment r => .fragment { r with
          unfinished := addNew r.unfinished ⟨p.records.size⟩, fieldSets := addNew r.fieldSets ⟨p.records.size⟩ }
        | r => r
      else (p.push (.fieldSet { path := path, fragments := fragments })).1.record? j := by
    intro j
    refine record?_foldl_modify (fun r => ?_) fragments _ j
    cases r <;> simp [addNew_addNew]
  have hlt : ∀ f ∈ fragments, f.index < p.records.size := by
    intro f hf
    obtain ⟨r, hr⟩ := hfragments f hf
    exact lt_size_of_record? hr
  have hnot : ⟨p.records.size⟩ ∉ fragments := fun hmem => Nat.lt_irrefl _ (hlt _ hmem)
  -- nothing belongs to a fragment, or has one, under the new number
  have hfresh : ∀ j, ⟨p.records.size⟩ ∉ p.facet Record.fieldSets [] j := by
    intro j hmem
    have hmem' := (h.sets j _).1 hmem
    unfold facet at hmem'
    have hnone : p.record? ⟨p.records.size⟩ = none := record?_eq_none.2 (Nat.le_refl _)
    rw [hnone] at hmem'
    exact absurd hmem' (by simp)
  have hsets : ∀ j, (p.addFieldSet path fragments).1.facet Record.fieldSets [] j =
      if j ∈ fragments then p.facet Record.fieldSets [] j ++ [⟨p.records.size⟩]
      else p.facet Record.fieldSets [] j := by
    intro j
    have hpush : (p.push (.fieldSet { path := path, fragments := fragments })).1.facet Record.fieldSets [] j =
        p.facet Record.fieldSets [] j := facet_push rfl
    by_cases hj : j ∈ fragments
    · obtain ⟨r, hr⟩ := hfragments j hj
      have hne : j ≠ ⟨p.records.size⟩ := fun heq => hnot (heq ▸ hj)
      have hnew := hfresh j
      unfold facet at hnew ⊢
      rw [hr] at hnew
      rw [if_pos hj, hrecord, if_pos hj, record?_push, if_neg hne, hr]
      exact if_neg hnew
    · rw [if_neg hj, ← hpush]
      unfold facet
      rw [hrecord, if_neg hj]
  have hfragments' : ∀ set, (p.addFieldSet path fragments).1.facet Record.fragments [] set =
      if set = ⟨p.records.size⟩ then fragments else p.facet Record.fragments [] set := by
    intro set
    have hpush : (p.addFieldSet path fragments).1.facet Record.fragments [] set =
        (p.push (.fieldSet { path := path, fragments := fragments })).1.facet Record.fragments [] set :=
      facet_foldl (fun q f => facet_modifyRecord fun r => by cases r <;> rfl) _
    rw [hpush]
    unfold facet
    rw [record?_push]
    split <;> rfl
  refine ⟨fun id => ?_, fun id set => ?_⟩
  · rw [hsets]
    split
    · exact List.nodup_append.2 ⟨h.once id, List.nodup_singleton _, fun a ha b hb heq =>
        hfresh id (List.mem_singleton.1 hb ▸ heq ▸ ha)⟩
    · exact h.once id
  · rw [hsets, hfragments']
    by_cases hset : set = ⟨p.records.size⟩
    · subst hset
      rw [if_pos rfl]
      by_cases hid : id ∈ fragments
      · simp [hid]
      · simp [hid, hfresh id]
    · rw [if_neg hset, ← h.sets id set]
      by_cases hid : id ∈ fragments
      · simp [hid, hset]
      · simp [hid]

/-- What a look for a result sends: the released items that are there, and the sets of fields of released fragments
without errors that were not sent. -/
theorem Listed.mem_sent (h : p.Listed) {label : Option String} (hsent : (id, label) ∈ p.sent) :
    (id ∈ p.released ∧ p.labelOf id = label ∧ ∃ r, p.record? id = some (.items r) ∧ r.endsStream = false ∧ r.items ≠ []) ∨
      p.isUnsent id = true ∧ ∃ f ∈ p.released, ∃ r, p.record? f = some (.fragment r) ∧ r.errors = [] ∧ r.label = label ∧
        p.BelongsTo id f := by
  have hmem : ∀ (ids gone : List RecordId), (id, label) ∈ p.sending gone ids → ∃ f ∈ ids, ∃ gone, id ∈ p.sends gone f ∧
      p.labelOf f = label := by
    intro ids
    induction ids with
    | nil => exact fun _ hnil => absurd hnil (by simp [sending])
    | cons f rest ih =>
      intro gone hcons
      rw [sending, List.mem_append] at hcons
      rcases hcons with hhere | hrest
      · obtain ⟨s, hs, heq⟩ := List.mem_map.1 hhere
        cases heq
        exact ⟨f, List.mem_cons_self, gone, hs, rfl⟩
      · obtain ⟨f', hf', hsends⟩ := ih _ hrest
        exact ⟨f', List.mem_cons_of_mem _ hf', hsends⟩
  obtain ⟨f, hf, gone, hsends, hlabel⟩ := hmem _ _ hsent
  unfold sends at hsends
  split at hsends
  · rename_i r hr
    split at hsends
    · exact absurd hsends (by simp)
    · rename_i hthere
      obtain rfl := List.mem_singleton.1 hsends
      rw [Bool.or_eq_true, not_or] at hthere
      exact Or.inl ⟨hf, hlabel, r, hr, by simpa using hthere.1, by simpa using hthere.2⟩
  · rename_i r hr
    split at hsends
    · rename_i herrors
      obtain ⟨hset, hunsent⟩ := List.mem_filter.1 hsends
      rw [Bool.and_eq_true] at hunsent
      unfold labelOf at hlabel
      rw [hr] at hlabel
      exact Or.inr ⟨hunsent.2, f, hf, r, hr, by simpa using herrors, hlabel, (h.mem_fieldSets hr).1 hset⟩
    · exact absurd hsends (by simp)
  · exact absurd hsends (by simp)

theorem Listed.lt_size_of_mem_sent (h : p.Listed) (hid : id ∈ p.sent.map Prod.fst) : id.index < p.records.size := by
  obtain ⟨⟨_, label⟩, hsent, rfl⟩ := List.mem_map.1 hid
  rcases h.mem_sent hsent with ⟨-, -, r, hr, -⟩ | ⟨-, f, -, r, -, -, -, u, hu, -⟩
  · exact lt_size_of_record? hr
  · exact lt_size_of_record? hu

/-- Every set of fields that was not sent goes with a released fragment without errors. -/
theorem Listed.mem_sent_of_belongsTo (h : p.Listed) {set f : RecordId} (hf : f ∈ p.released) {r : FragmentRecord}
    (hr : p.record? f = some (.fragment r)) (herrors : r.errors = []) (hset : p.BelongsTo set f)
    (hunsent : p.isUnsent set = true) : set ∈ p.sent.map Prod.fst := by
  have hmem : ∀ (ids gone : List RecordId), f ∈ ids → set ∈ gone ∨ set ∈ (p.sending gone ids).map Prod.fst := by
    intro ids
    induction ids with
    | nil => exact fun _ hnil => absurd hnil (by simp)
    | cons id rest ih =>
      intro gone hcons
      rw [sending, List.map_append, List.map_map, List.mem_append]
      have hfirst : (p.sends gone id).map (Prod.fst ∘ (·, p.labelOf id)) = p.sends gone id := List.map_id _
      rw [hfirst]
      rcases List.mem_cons.1 hcons with rfl | hrest
      · by_cases hgone : set ∈ gone
        · exact Or.inl hgone
        · refine Or.inr (Or.inl ?_)
          unfold sends
          rw [hr]
          simp [herrors, hgone, hunsent, (h.mem_fieldSets hr).2 hset]
      · rcases ih (gone ++ p.sends gone id) hrest with hmem | hmem
        · exact (List.mem_append.1 hmem).imp_right Or.inl
        · exact Or.inr (Or.inr hmem)
  exact (hmem p.released [] hf).resolve_left (by simp)

/-- With a look, exactly those sets of fields are sent that belong to a released fragment without errors. -/
theorem Sound.standing_nextResult? (h : p.Sound) (hl : p.Listed) (k : RecordId) :
    (p.nextResult?.1.standing k).filtered = (p.standing k).filtered ∧
      (p.nextResult?.1.standing k).errors = (p.standing k).errors ∧
      ((p.nextResult?.1.standing k).sent = true ↔ (p.standing k).sent = true ∨
        ∃ f ∈ p.released, p.BelongsTo k f ∧ (p.standing f).errors = []) := by
  unfold standing facet
  rw [h.record?_nextResult? hl.listsOnce]
  refine ⟨?_, ?_, ?_⟩
  · split
    · cases p.record? k with
      | none => rfl
      | some r => cases r <;> rfl
    · rfl
  · split
    · cases p.record? k with
      | none => rfl
      | some r => cases r <;> rfl
    · rfl
  · have hfragment : ∀ f, p.BelongsTo k f → ∃ r, p.record? f = some (.fragment r) ∧
        ((((p.record? f).map Record.standing).getD {}).errors = [] ↔ r.errors = []) := by
      rintro f ⟨s, hs, hf⟩
      obtain ⟨-, r, hr⟩ := h.linked.fragments k s hs f hf
      refine ⟨r, hr, ?_⟩
      rw [hr]
      rfl
    by_cases hgone : k ∈ p.sent.map Prod.fst
    · rw [if_pos hgone]
      obtain ⟨⟨k', label⟩, hsent, rfl⟩ := List.mem_map.1 hgone
      rcases hl.mem_sent hsent with ⟨-, -, r, hr, -⟩ | ⟨hunsent, f, hf, r, hr, herrors, -, hbelongs⟩
      · rw [hr]
        simp only [Option.map_some, Option.getD_some, Record.standing, Record.emptied, Bool.false_eq_true, false_or,
          false_iff]
        rintro ⟨f, -, ⟨s, hs, -⟩, -⟩
        rw [hr] at hs
        exact absurd hs (by simp)
      · have hset := hbelongs
        obtain ⟨s, hs, -⟩ := hset
        obtain ⟨r', hr', hiff⟩ := hfragment f hbelongs
        rw [hr] at hr'
        cases hr'
        rw [hs]
        simp only [Option.map_some, Option.getD_some, Record.emptied, Record.standing, true_iff]
        exact Or.inr ⟨f, hf, hbelongs, hiff.2 herrors⟩
    · rw [if_neg hgone]
      refine ⟨Or.inl, fun hsent => hsent.elim id fun ⟨f, hf, hbelongs, herrors⟩ => ?_⟩
      obtain ⟨r, hr, hiff⟩ := hfragment f hbelongs
      obtain ⟨s, hs, -⟩ := id hbelongs
      rw [hs]
      cases hdone : s.sent with
      | true => exact hdone
      | false =>
        refine absurd (hl.mem_sent_of_belongsTo hf hr (hiff.1 herrors) hbelongs ?_) hgone
        unfold isUnsent
        rw [hs]
        simp [hdone]

end Publisher

end GraphQL
