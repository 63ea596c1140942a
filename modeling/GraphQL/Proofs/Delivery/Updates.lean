import GraphQL.Proofs.Delivery.Readiness

/-!
# Changes of records

Apart from adding records, the operations of the publisher change records that are there.  `Publisher.Updates` says of
which ones items are completed, and which ones become the last of their streams.  A set of fields that is completed or
failed is no longer unfinished anywhere.
-/

namespace GraphQL

namespace Publisher

/-- Two publishers that differ in the work that waits in them at most. -/
structure Same {ω : Type} (p q : Publisher ω) : Prop where
  records : q.records = p.records
  streams : q.streams = p.streams
  pending : q.pending = p.pending
  released : q.released = p.released
  closed : q.closed = p.closed

/-- Something of the stream failed: one of its records is filtered, or the stream has errors. -/
def IsCut {ω : Type} (p : Publisher ω) (stream : StreamId) : Prop :=
  (∃ id r, p.record? id = some (.items r) ∧ r.stream = stream ∧ r.filtered = true) ∨
    ∃ s, p.stream? stream = some s ∧ s.errors ≠ []

namespace Same

variable {ω : Type} {p q : Publisher ω}

theorem refl (p : Publisher ω) : p.Same p := ⟨rfl, rfl, rfl, rfl, rfl⟩

theorem trans {u : Publisher ω} (h : p.Same q) (h' : q.Same u) : p.Same u :=
  ⟨h'.records.trans h.records, h'.streams.trans h.streams, h'.pending.trans h.pending, h'.released.trans h.released,
    h'.closed.trans h.closed⟩

theorem record? (h : p.Same q) (id : RecordId) : q.record? id = p.record? id := by
  unfold Publisher.record?
  rw [h.records]

theorem stream? (h : p.Same q) (id : StreamId) : q.stream? id = p.stream? id := by
  unfold Publisher.stream?
  rw [h.streams]

theorem grows (h : p.Same q) (n : Nat) : Grows n p q :=
  ⟨fun id r hr => ⟨r, by rw [h.record?]; exact hr, Record.Grows.refl r⟩,
    fun id s hs => ⟨s, by rw [h.stream?]; exact hs, rfl, rfl, List.Subset.refl _⟩, h.closed⟩

theorem sound (h : p.Same q) (hp : p.Sound) : q.Sound := by
  obtain ⟨records, streams, pending, released, inbox, closed⟩ := p
  obtain ⟨records', streams', pending', released', inbox', closed'⟩ := q
  obtain ⟨h₁, h₂, h₃, h₄, h₅⟩ := h
  simp only at h₁ h₂ h₃ h₄ h₅
  subst h₁ h₂ h₃ h₄ h₅
  exact ⟨⟨hp.linked.children, hp.linked.fragments, hp.linked.unfinished, hp.linked.streams⟩,
    ⟨hp.prompt.nodup, hp.prompt.releasedNodup, hp.prompt.deliverable, hp.prompt.released, hp.prompt.completed,
      hp.prompt.ready⟩⟩

end Same

theorem Grows.isCut {ω : Type} {n : Nat} {p q : Publisher ω} {stream : StreamId} (h : Grows n p q)
    (hcut : p.IsCut stream) : q.IsCut stream := by
  rcases hcut with ⟨id, r, hr, hs, hf⟩ | ⟨s, hs, he⟩
  · obtain ⟨r', hr', hg⟩ := h.records id _ hr
    cases hg with
    | items hs' _ _ _ _ hf' => exact Or.inl ⟨id, _, hr', hs'.trans hs, hf' hf⟩
  · obtain ⟨s', hs', -, -, he'⟩ := h.streams stream s hs
    refine Or.inr ⟨s', hs', fun hnil => he ?_⟩
    rw [hnil] at he'
    exact List.subset_nil.1 he'

/-- A change of records that are there: only the records of one kind are completed by it, and only those of another kind
become final. -/
structure Updates {ω : Type} (p q : Publisher ω) (D F : RecordId → Prop) : Prop where
  size : q.records.size = p.records.size
  inbox : q.inbox = p.inbox
  items : ∀ id r', q.record? id = some (.items r') → ∃ r, p.record? id = some (.items r) ∧ r'.stream = r.stream ∧
    (r'.completed = true → r.completed = true ∨ D id) ∧ (r'.final = true → r.final = true ∨ F id)

namespace Updates

variable {ω : Type} {p q : Publisher ω} {D F : RecordId → Prop}

theorem refl (p : Publisher ω) : p.Updates p D F := ⟨rfl, rfl, fun _ r h => ⟨r, h, rfl, Or.inl, Or.inl⟩⟩

theorem trans {u : Publisher ω} (h : p.Updates q D F) (h' : q.Updates u D F) :
    p.Updates u D F := by
  refine ⟨h'.size.trans h.size, h'.inbox.trans h.inbox, fun id r'' hr'' => ?_⟩
  obtain ⟨r', hr', hs', hc', hf'⟩ := h'.items id r'' hr''
  obtain ⟨r, hr, hs, hc, hf⟩ := h.items id r' hr'
  refine ⟨r, hr, hs'.trans hs, fun hd => ?_, fun hd => ?_⟩
  · rcases hc' hd with hd | hd
    · exact hc hd
    · exact Or.inr hd
  · rcases hf' hd with hd | hd
    · exact hf hd
    · exact Or.inr hd

theorem modifyRecord (p : Publisher ω) (id : RecordId) {f : Record → Record}
    (hf : ∀ r r', f r = .items r' → ∃ r₀, r = .items r₀ ∧ r'.stream = r₀.stream ∧
      (r'.completed = true → r₀.completed = true ∨ D id) ∧ (r'.final = true → r₀.final = true ∨ F id)) :
    p.Updates (p.modifyRecord id f) D F := by
  refine ⟨size_modifyRecord p id f, rfl, fun j r' hr' => ?_⟩
  rw [record?_modifyRecord] at hr'
  split at hr'
  · rename_i heq
    subst heq
    obtain ⟨r, hr, hfr⟩ := Option.map_eq_some_iff.1 hr'
    obtain ⟨r₀, rfl, h⟩ := hf r r' hfr
    exact ⟨r₀, hr, h⟩
  · exact ⟨r', hr', rfl, Or.inl, Or.inl⟩

theorem modifyFragment (p : Publisher ω) (id : RecordId) (g : FragmentRecord → FragmentRecord) :
    p.Updates (p.modifyFragment id g) D F := by
  refine modifyRecord p id fun r r' heq => ?_
  cases r
  case items r => cases heq; exact ⟨_, rfl, rfl, Or.inl, Or.inl⟩
  all_goals exact absurd heq (by simp)

theorem modifyItems (p : Publisher ω) (id : RecordId) {g : ItemsRecord → ItemsRecord}
    (hstream : ∀ r, (g r).stream = r.stream)
    (hcompleted : ∀ r, (g r).completed = true → r.completed = true ∨ D id)
    (hfinal : ∀ r, (g r).final = true → r.final = true ∨ F id) :
    p.Updates (p.modifyItems id g) D F := by
  refine modifyRecord p id fun r r' heq => ?_
  cases r
  case items r => cases heq; exact ⟨r, rfl, hstream r, hcompleted r, hfinal r⟩
  all_goals exact absurd heq (by simp)

theorem foldl {α : Type} {f : Publisher ω → α → Publisher ω}
    (hf : ∀ (p : Publisher ω) a, p.Updates (f p a) D F) (xs : List α) (p : Publisher ω) :
    p.Updates (xs.foldl f p) D F := by
  induction xs generalizing p with
  | nil => exact refl p
  | cons x rest ih => exact (hf p x).trans (ih (f p x))

theorem finishFieldSet (p : Publisher ω) (set fragment : RecordId) :
    p.Updates (p.finishFieldSet set fragment) D F :=
  modifyFragment p fragment _

theorem release (p : Publisher ω) (id : RecordId) : p.Updates (p.release id) D F := by
  unfold Publisher.release
  split <;> exact ⟨rfl, rfl, fun _ r h => ⟨r, h, rfl, Or.inl, Or.inl⟩⟩

theorem addError (p : Publisher ω) (id : RecordId) (e : Error) : p.Updates (p.addError id e) D F := by
  refine modifyRecord p id fun r r' heq => ?_
  cases r
  case items r => cases heq; exact ⟨r, rfl, rfl, Or.inl, Or.inl⟩
  all_goals exact absurd heq (by simp [Record.addError])

theorem filter (p : Publisher ω) (path : Path) (id : RecordId) : p.Updates (p.filter path id).1 D F := by
  refine foldl (fun p id => modifyRecord p id fun r r' heq => ?_) _ p
  cases r
  case items r => cases heq; exact ⟨r, rfl, rfl, Or.inl, Or.inl⟩
  all_goals exact absurd heq (by simp [Record.setFiltered])

theorem setFinal (p : Publisher ω) {id : RecordId} (hid : F id) : p.Updates (p.setFinal id) D F :=
  modifyItems p id (fun _ => rfl) (fun _ => Or.inl) fun _ _ => Or.inr hid

theorem setEnd (p : Publisher ω) {id : RecordId} (hid : F id) : p.Updates (p.setEnd id) D F :=
  modifyItems p id (fun _ => rfl) (fun _ => Or.inl) fun _ _ => Or.inr hid

theorem completeItems (p : Publisher ω) {id : RecordId} (items : List Json) (hid : D id) :
    p.Updates (p.completeItems id items) D F :=
  (modifyItems p id (g := fun r => { r with items := items, completed := true }) (fun _ => rfl)
    (fun _ _ => Or.inr hid) fun _ => Or.inl).trans (release _ id)

theorem retireItems (p : Publisher ω) {id : RecordId} (hid : D id) : p.Updates (p.retireItems id) D F :=
  (modifyItems p id (g := fun r => { r with endsStream := true, completed := true }) (fun _ => rfl)
    (fun _ _ => Or.inr hid) fun _ => Or.inl).trans (release _ id)

theorem failItems (p : Publisher ω) {id : RecordId} (e : Error) (hd : D id) (hf : F id) :
    p.Updates (p.failItems id e).1 D F := by
  unfold Publisher.failItems
  split
  · refine Updates.trans ?_ (release _ id)
    have h : p.Updates (p.modifyItems id fun r => { r with final := true, completed := true }) D F :=
      modifyItems p id (fun _ => rfl) (fun _ _ => Or.inr hd) fun _ _ => Or.inr hf
    exact ⟨h.size, h.inbox, h.items⟩
  · exact refl p

theorem completeFieldSet (p : Publisher ω) (id : RecordId) (data : Json) :
    p.Updates (p.completeFieldSet id data) D F := by
  refine Updates.trans (modifyRecord p id fun r r' heq => ?_) (foldl (fun p fragment => ?_) _ _)
  · cases r
    case items r => cases heq; exact ⟨_, rfl, rfl, Or.inl, Or.inl⟩
    all_goals exact absurd heq (by simp)
  · refine Updates.trans (finishFieldSet p id fragment) ?_
    dsimp only
    split
    · split
      · exact release _ fragment
      · exact refl _
    · exact refl _

theorem failFieldSet (p : Publisher ω) (id : RecordId) (e : Error) : p.Updates (p.failFieldSet id e) D F :=
  foldl (fun p fragment => ((finishFieldSet p id fragment).trans (modifyFragment _ fragment _)).trans
    (release _ fragment)) _ p

end Updates

/-- What is closed when something is filtered is cut. -/
theorem isCut_filter {ω : Type} {p : Publisher ω} {path : Path} {id : RecordId} {stream : StreamId}
    (h : stream ∈ (p.filter path id).2) : (p.filter path id).1.IsCut stream := by
  obtain ⟨j, hj, heq⟩ := List.mem_filterMap.1 (List.mem_eraseDups.1 h)
  have hidem : ∀ r : Record, r.setFiltered.setFiltered = r.setFiltered := fun r => by cases r <;> rfl
  left
  split at heq
  · rename_i r hr
    cases heq
    refine ⟨j, { r with filtered := true }, ?_, rfl, rfl⟩
    show ((List.filter _ _).foldl (fun p id => p.modifyRecord id Record.setFiltered) p).record? j = _
    rw [record?_foldl_modify hidem, if_pos hj, hr]
    rfl
  · exact absurd heq (by simp)

/-- What is closed when items fail is cut. -/
theorem isCut_failItems {ω : Type} {p : Publisher ω} {id : RecordId} {e : Error} {stream : StreamId} (hp : p.Linked)
    (h : stream ∈ (p.failItems id e).2) : (p.failItems id e).1.IsCut stream := by
  unfold failItems at h ⊢
  split at h
  · rename_i r hr
    obtain rfl := List.mem_singleton.1 h
    obtain ⟨s, hs⟩ := hp.streams id r hr
    have hstream : ∀ q : Publisher ω, (q.release id).streams = q.streams := by
      intro q
      unfold release
      split <;> rfl
    right
    refine ⟨{ s with errors := s.errors ++ [e] }, ?_, by simp⟩
    unfold stream?
    dsimp only
    rw [hstream]
    show (p.streams.modify r.stream.index _)[r.stream.index]? = _
    rw [Array.getElem?_modify, if_pos rfl, show p.streams[r.stream.index]? = some s from hs]
    rfl
  · exact absurd h (by simp)

/-! ### New records -/

/-- A new record is added, and of the others at most children and sets of fields change. -/
structure Adds {ω : Type} (p q : Publisher ω) (record : Record) : Prop where
  size : q.records.size = p.records.size + 1
  inbox : q.inbox = p.inbox
  new : q.record? ⟨p.records.size⟩ = some record
  items : ∀ id r', q.record? id = some (.items r') → id.index < p.records.size →
    ∃ r, p.record? id = some (.items r) ∧ r'.stream = r.stream ∧ r'.completed = r.completed ∧ r'.final = r.final

namespace Adds

variable {ω : Type} {p q : Publisher ω}

theorem push (p : Publisher ω) (record : Record) : p.Adds (p.push record).1 record := by
  refine ⟨Array.size_push _, rfl, by rw [record?_push, if_pos rfl], fun id r' hr' hlt => ?_⟩
  rw [record?_push, if_neg (fun heq => by rw [heq] at hlt; exact Nat.lt_irrefl _ hlt)] at hr'
  exact ⟨r', hr', rfl, rfl, rfl⟩

theorem modifyRecord {record : Record} (h : p.Adds q record) {id : RecordId} (hlt : id.index < p.records.size)
    {f : Record → Record} (hf : ∀ r r', f r = .items r' → ∃ r₀, r = .items r₀ ∧ r'.stream = r₀.stream ∧
      r'.completed = r₀.completed ∧ r'.final = r₀.final) : p.Adds (q.modifyRecord id f) record := by
  refine ⟨(size_modifyRecord q id f).trans h.size, h.inbox, ?_, fun j r' hr' hj => ?_⟩
  · rw [record?_modifyRecord, if_neg fun heq => by rw [heq] at hlt; exact Nat.lt_irrefl _ hlt]
    exact h.new
  · rw [record?_modifyRecord] at hr'
    split at hr'
    · obtain ⟨r, hr, hfr⟩ := Option.map_eq_some_iff.1 hr'
      obtain ⟨r₀, rfl, hs₀, hc₀, hf₀⟩ := hf r r' hfr
      obtain ⟨r₁, hr₁, hs₁, hc₁, hf₁⟩ := h.items j r₀ hr hj
      exact ⟨r₁, hr₁, hs₀.trans hs₁, hc₀.trans hc₁, hf₀.trans hf₁⟩
    · exact h.items j r' hr' hj

theorem push_addChild (h : p.Linked) {parent : RecordId} (hparent : parent.index < p.records.size) (record : Record) :
    p.Adds ((p.push record).1.addChild parent ⟨p.records.size⟩) record := by
  rw [addChild_eq, attachedTo_push hparent]
  refine List.foldlRecOn (motive := fun q => p.Adds q record) _ _ (push p record) fun q hq id hid => ?_
  refine hq.modifyRecord (h.lt_size_of_mem_attachedTo hparent hid) fun r r' heq => ?_
  cases r
  case items r => cases heq; exact ⟨r, rfl, rfl, rfl, rfl⟩
  all_goals exact absurd heq (by simp [Record.addChild])

theorem addFragment (h : p.Linked) (path : Path) (label : Option String) {parent : RecordId}
    (hparent : parent.index < p.records.size) :
    p.Adds (p.addFragment path label parent).1 (.fragment { path := path, label := label }) :=
  push_addChild h hparent _

theorem addItems (h : p.Linked) (stream : StreamId) (path : Path) {parent : RecordId}
    (hparent : parent.index < p.records.size) :
    p.Adds (p.addItems stream path parent).1 (.items { stream := stream, path := path }) :=
  push_addChild h hparent _

theorem addFieldSet (path : Path) {fragments : List RecordId} (hfragments : ∀ f ∈ fragments, p.IsFragment f) :
    p.Adds (p.addFieldSet path fragments).1 (.fieldSet { path := path, fragments := fragments }) := by
  refine List.foldlRecOn (motive := fun q => p.Adds q (.fieldSet { path := path, fragments := fragments }))
    fragments _ (push p _) fun q hq id hid => ?_
  obtain ⟨fr, hfr⟩ := hfragments id hid
  refine hq.modifyRecord (lt_size_of_record? hfr) fun r r' heq => ?_
  cases r
  case items r => cases heq; exact ⟨_, rfl, rfl, rfl, rfl⟩
  all_goals exact absurd heq (by simp)

end Adds

/-! ### Sets of fields that are done -/

section Finished

variable {ω : Type} {p : Publisher ω} {set : RecordId}

private theorem unfinished_finishFieldSet {fragment id : RecordId} {r' : Record}
    (hr' : (p.finishFieldSet set fragment).record? id = some r') (hset : set ∈ r'.unfinished) :
    id ≠ fragment ∧ ∃ r, p.record? id = some r ∧ set ∈ r.unfinished := by
  unfold finishFieldSet modifyFragment at hr'
  rw [record?_modifyRecord] at hr'
  split at hr'
  · obtain ⟨r, hr, hfr⟩ := Option.map_eq_some_iff.1 hr'
    cases r
    case fragment r =>
      subst hfr
      exact absurd (List.mem_filter.1 hset).2 (by simp)
    all_goals
      subst hfr
      exact absurd hset (by simp [Record.unfinished])
  · rename_i hne
    exact ⟨fun heq => hne heq.symm, r', hr', hset⟩

/-- A series of steps, each of which takes a set off the unfinished ones of a fragment. -/
private theorem unfinished_foldl {step : Publisher ω → RecordId → Publisher ω}
    (hstep : ∀ p fragment id r', (step p fragment).record? id = some r' → set ∈ r'.unfinished →
      id ≠ fragment ∧ ∃ r, Publisher.record? p id = some r ∧ set ∈ r.unfinished)
    (fragments : List RecordId) {id : RecordId} {r' : Record} (hr' : (fragments.foldl step p).record? id = some r')
    (hset : set ∈ r'.unfinished) : id ∉ fragments ∧ ∃ r, p.record? id = some r ∧ set ∈ r.unfinished := by
  induction fragments generalizing p with
  | nil => exact ⟨by simp, r', hr', hset⟩
  | cons fragment rest ih =>
    obtain ⟨hnot, r₁, hr₁, hset₁⟩ := ih hr'
    obtain ⟨hne, r, hr, hset₀⟩ := hstep p fragment id r₁ hr₁ hset₁
    exact ⟨by simp [hne, hnot], r, hr, hset₀⟩

private theorem Linked.mem_fragmentsOf (h : p.Linked) {fragment : RecordId} {r : Record}
    (hr : p.record? fragment = some r) (hset : set ∈ r.unfinished) : fragment ∈ p.fragmentsOf set := by
  obtain ⟨g, hg, hmem⟩ := h.unfinished fragment r hr set hset
  unfold fragmentsOf
  rw [hg]
  exact hmem

theorem not_unfinished_completeFieldSet (h : p.Linked) (data : Json) {fragment : RecordId} {r' : Record}
    (hr' : (p.completeFieldSet set data).record? fragment = some r') : set ∉ r'.unfinished := by
  intro hset
  obtain ⟨hnot, r, hr, hset'⟩ := unfinished_foldl (fun p fragment id r' hr' hset => by
    refine unfinished_finishFieldSet (show _ = some r' from ?_) hset
    dsimp only at hr'
    split at hr'
    · split at hr'
      · rw [record?_release] at hr'
        exact hr'
      · exact hr'
    · exact hr') (p.fragmentsOf set) hr' hset
  rw [record?_modifyRecord] at hr
  split at hr
  · obtain ⟨r₀, hr₀, heq⟩ := Option.map_eq_some_iff.1 hr
    refine hnot (h.mem_fragmentsOf hr₀ ?_)
    cases r₀ <;> subst heq <;> exact hset'
  · exact hnot (h.mem_fragmentsOf hr hset')

theorem not_unfinished_failFieldSet (h : p.Linked) (e : Error) {fragment : RecordId} {r' : Record}
    (hr' : (p.failFieldSet set e).record? fragment = some r') : set ∉ r'.unfinished := by
  intro hset
  obtain ⟨hnot, r, hr, hset'⟩ := unfinished_foldl (fun p fragment id r' hr' hset => by
    dsimp only at hr'
    rw [record?_release] at hr'
    unfold modifyFragment at hr'
    rw [record?_modifyRecord] at hr'
    split at hr'
    · obtain ⟨r₀, hr₀, heq⟩ := Option.map_eq_some_iff.1 hr'
      refine unfinished_finishFieldSet hr₀ ?_
      cases r₀ <;> subst heq <;> exact hset
    · exact unfinished_finishFieldSet hr' hset) (p.fragmentsOf set) hr' hset
  exact hnot (h.mem_fragmentsOf hr hset')

end Finished

end Publisher

end GraphQL
