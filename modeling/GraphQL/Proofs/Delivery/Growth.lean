import GraphQL.Proofs.Delivery.Lookup

/-!
# Records only grow

A record keeps its kind, its path and what it belongs to for good; it is never given other parents.  Operations add
records, which may become children or field sets of older ones, and what is completed, final or filtered stays so.
`Publisher.Grows n` says this of two publishers, of which the second one has new records from the number `n` on, and
every operation that running work uses leads to a grown publisher.
-/

namespace GraphQL

/-- A list of records is extended by records from a number on. -/
structure Extends (n : Nat) (xs ys : List RecordId) : Prop where
  subset : xs ⊆ ys
  new : ∀ y ∈ ys, y ∈ xs ∨ n ≤ y.index

namespace Extends

variable {n : Nat}

theorem refl (xs : List RecordId) : Extends n xs xs := ⟨List.Subset.refl xs, fun _ => Or.inl⟩

theorem trans {xs ys zs : List RecordId} (h : Extends n xs ys) (h' : Extends n ys zs) : Extends n xs zs := by
  refine ⟨List.Subset.trans h.subset h'.subset, fun z hz => ?_⟩
  rcases h'.new z hz with hz | hz
  · exact h.new z hz
  · exact Or.inr hz

theorem mono {m : Nat} {xs ys : List RecordId} (h : Extends m xs ys) (hle : n ≤ m) : Extends n xs ys :=
  ⟨h.subset, fun y hy => (h.new y hy).imp_right (Nat.le_trans hle)⟩

theorem addNew {xs : List RecordId} {x : RecordId} (hx : n ≤ x.index) : Extends n xs (GraphQL.addNew xs x) := by
  refine ⟨fun y hy => mem_addNew.2 (Or.inl hy), fun y hy => ?_⟩
  rcases mem_addNew.1 hy with hy | rfl
  · exact Or.inl hy
  · exact Or.inr hx

end Extends

/-- One record can become another one while the records from the number `n` on are new. -/
inductive Record.Grows (n : Nat) : Record → Record → Prop
  | initial {r r' : InitialRecord} (children : Extends n r.children r'.children) : Grows n (.initial r) (.initial r')
  | fragment {r r' : FragmentRecord} (path : r'.path = r.path) (label : r'.label = r.label)
      (children : Extends n r.children r'.children) (fieldSets : Extends n r.fieldSets r'.fieldSets)
      (unfinished : ∀ set ∈ r'.unfinished, set ∈ r.unfinished ∨ n ≤ set.index) (errors : r.errors ⊆ r'.errors)
      (filtered : r.filtered = true → r'.filtered = true) : Grows n (.fragment r) (.fragment r')
  | fieldSet {r r' : FieldSetRecord} (path : r'.path = r.path) (fragments : r'.fragments = r.fragments)
      (sent : r.sent = true → r'.sent = true) : Grows n (.fieldSet r) (.fieldSet r')
  | items {r r' : ItemsRecord} (stream : r'.stream = r.stream) (path : r'.path = r.path)
      (children : Extends n r.children r'.children) (completed : r.completed = true → r'.completed = true)
      (final : r.final = true → r'.final = true) (filtered : r.filtered = true → r'.filtered = true) :
      Grows n (.items r) (.items r')

namespace Record.Grows

variable {n : Nat}

theorem refl (r : Record) : Record.Grows n r r := by
  cases r
  · exact initial (.refl _)
  · exact fragment rfl rfl (.refl _) (.refl _) (fun _ => Or.inl) (List.Subset.refl _) fun h => h
  · exact fieldSet rfl rfl fun h => h
  · exact items rfl rfl (.refl _) (fun h => h) (fun h => h) fun h => h

theorem trans {a b c : Record} (h : Record.Grows n a b) (h' : Record.Grows n b c) : Record.Grows n a c := by
  cases h with
  | initial hc =>
    cases h' with
    | initial hc' => exact initial (hc.trans hc')
  | fragment hp hl hc hs hu he hf =>
    cases h' with
    | fragment hp' hl' hc' hs' hu' he' hf' =>
      refine fragment (hp'.trans hp) (hl'.trans hl) (hc.trans hc') (hs.trans hs') (fun set hset => ?_) (List.Subset.trans he he')
        fun h => hf' (hf h)
      rcases hu' set hset with hset | hset
      · exact hu set hset
      · exact Or.inr hset
  | fieldSet hp hf hs =>
    cases h' with
    | fieldSet hp' hf' hs' => exact fieldSet (hp'.trans hp) (hf'.trans hf) fun h => hs' (hs h)
  | items hs hp hc hd hl hf =>
    cases h' with
    | items hs' hp' hc' hd' hl' hf' =>
      exact items (hs'.trans hs) (hp'.trans hp) (hc.trans hc') (fun h => hd' (hd h)) (fun h => hl' (hl h))
        fun h => hf' (hf h)

theorem mono {m : Nat} {a b : Record} (h : Record.Grows m a b) (hle : n ≤ m) : Record.Grows n a b := by
  cases h with
  | initial hc => exact initial (hc.mono hle)
  | fragment hp hl hc hs hu he hf =>
    exact fragment hp hl (hc.mono hle) (hs.mono hle) (fun set hset => (hu set hset).imp_right (Nat.le_trans hle)) he hf
  | fieldSet hp hf hs => exact fieldSet hp hf hs
  | items hs hp hc hd hl hf => exact items hs hp (hc.mono hle) hd hl hf

theorem children {a b : Record} (h : Record.Grows n a b) : Extends n a.children b.children := by
  cases h with
  | initial hc => exact hc
  | fragment _ _ hc => exact hc
  | fieldSet => exact .refl _
  | items _ _ hc => exact hc

theorem addChild {child : RecordId} (hchild : n ≤ child.index) (r : Record) :
    Record.Grows n r (r.addChild child) := by
  cases r
  · exact initial (.addNew hchild)
  · exact fragment rfl rfl (.addNew hchild) (.refl _) (fun _ => Or.inl) (List.Subset.refl _) fun h => h
  · exact refl _
  · exact items rfl rfl (.addNew hchild) (fun h => h) (fun h => h) fun h => h

theorem addError (e : Error) (r : Record) : Record.Grows n r (r.addError e) := by
  cases r
  · exact initial (.refl _)
  · exact fragment rfl rfl (.refl _) (.refl _) (fun _ => Or.inl) (List.subset_append_left _ _) fun h => h
  · exact fieldSet rfl rfl fun h => h
  · exact items rfl rfl (.refl _) (fun h => h) (fun h => h) fun h => h

theorem setFiltered (r : Record) : Record.Grows n r r.setFiltered := by
  cases r
  · exact refl _
  · exact fragment rfl rfl (.refl _) (.refl _) (fun _ => Or.inl) (List.Subset.refl _) fun _ => rfl
  · exact refl _
  · exact items rfl rfl (.refl _) (fun h => h) (fun h => h) fun _ => rfl

end Record.Grows

namespace Publisher

variable {ω : Type} {n : Nat}

/-- One publisher can become another one while the records from the number `n` on are new. -/
structure Grows (n : Nat) (p q : Publisher ω) : Prop where
  records : ∀ id r, p.record? id = some r → ∃ r', q.record? id = some r' ∧ Record.Grows n r r'
  streams : ∀ id s, p.stream? id = some s →
    ∃ s', q.stream? id = some s' ∧ s'.path = s.path ∧ s'.label = s.label ∧ s.errors ⊆ s'.errors
  closed : q.closed = p.closed

namespace Grows

theorem refl (p : Publisher ω) : Grows n p p :=
  ⟨fun _ r h => ⟨r, h, Record.Grows.refl r⟩, fun _ s h => ⟨s, h, rfl, rfl, List.Subset.refl _⟩, rfl⟩

theorem trans {p q u : Publisher ω} (h : Grows n p q) (h' : Grows n q u) : Grows n p u where
  records id r hr := by
    obtain ⟨r', hr', hg⟩ := h.records id r hr
    obtain ⟨r'', hr'', hg'⟩ := h'.records id r' hr'
    exact ⟨r'', hr'', hg.trans hg'⟩
  streams id s hs := by
    obtain ⟨s', hs', hp, hl, he⟩ := h.streams id s hs
    obtain ⟨s'', hs'', hp', hl', he'⟩ := h'.streams id s' hs'
    exact ⟨s'', hs'', hp'.trans hp, hl'.trans hl, List.Subset.trans he he'⟩
  closed := h'.closed.trans h.closed

theorem mono {m : Nat} {p q : Publisher ω} (h : Grows m p q) (hle : n ≤ m) : Grows n p q where
  records id r hr := by
    obtain ⟨r', hr', hg⟩ := h.records id r hr
    exact ⟨r', hr', hg.mono hle⟩
  streams := h.streams
  closed := h.closed

theorem size_le {p q : Publisher ω} (h : Grows n p q) : p.records.size ≤ q.records.size := by
  rcases Nat.eq_zero_or_pos p.records.size with h0 | hpos
  · omega
  · obtain ⟨r, hr⟩ := exists_record? (show (⟨p.records.size - 1⟩ : RecordId).index < p.records.size by
      show p.records.size - 1 < _
      omega)
    obtain ⟨r', hr', -⟩ := h.records _ r hr
    have := lt_size_of_record? hr'
    show p.records.size ≤ q.records.size
    simp only at this
    omega

/-- A record that was there before has grown into what it is. -/
theorem old {p q : Publisher ω} (h : Grows n p q) {id : RecordId} {r' : Record} (hr' : q.record? id = some r')
    (hlt : id.index < p.records.size) : ∃ r, p.record? id = some r ∧ Record.Grows n r r' := by
  obtain ⟨r, hr⟩ := exists_record? hlt
  obtain ⟨r'', hr'', hg⟩ := h.records id r hr
  rw [hr'] at hr''
  obtain rfl := Option.some.inj hr''
  exact ⟨r, hr, hg⟩

theorem modifyRecord (p : Publisher ω) (id : RecordId) {f : Record → Record} (hf : ∀ r, Record.Grows n r (f r)) :
    Grows n p (p.modifyRecord id f) where
  records j r hr := by
    rw [record?_modifyRecord]
    split
    · exact ⟨f r, by rw [hr]; rfl, hf r⟩
    · exact ⟨r, hr, Record.Grows.refl r⟩
  streams j s hs := ⟨s, hs, rfl, rfl, List.Subset.refl _⟩
  closed := rfl

theorem foldl {α : Type} {f : Publisher ω → α → Publisher ω} (hf : ∀ (p : Publisher ω) a, Grows n p (f p a))
    (xs : List α) (p : Publisher ω) : Grows n p (xs.foldl f p) := by
  induction xs generalizing p with
  | nil => exact refl p
  | cons x rest ih => exact (hf p x).trans (ih (f p x))

theorem modifyFragment (p : Publisher ω) (id : RecordId) {f : FragmentRecord → FragmentRecord}
    (hf : ∀ r, Record.Grows n (.fragment r) (.fragment (f r))) : Grows n p (p.modifyFragment id f) := by
  refine modifyRecord p id fun r => ?_
  cases r
  case fragment r => exact hf r
  all_goals exact Record.Grows.refl _

theorem modifyItems (p : Publisher ω) (id : RecordId) {f : ItemsRecord → ItemsRecord}
    (hf : ∀ r, Record.Grows n (.items r) (.items (f r))) : Grows n p (p.modifyItems id f) := by
  refine modifyRecord p id fun r => ?_
  cases r
  case items r => exact hf r
  all_goals exact Record.Grows.refl _

theorem push (p : Publisher ω) (r : Record) : Grows n p (p.push r).1 where
  records j r' hr' := by
    have hne : j ≠ ⟨p.records.size⟩ := by
      rintro rfl
      exact Nat.lt_irrefl _ (lt_size_of_record? hr')
    exact ⟨r', by rw [record?_push, if_neg hne]; exact hr', Record.Grows.refl r'⟩
  streams j s hs := ⟨s, hs, rfl, rfl, List.Subset.refl _⟩
  closed := rfl

theorem addChild (p : Publisher ω) (parent : RecordId) {child : RecordId} (hchild : n ≤ child.index) :
    Grows n p (p.addChild parent child) :=
  foldl (fun p id => modifyRecord p id (Record.Grows.addChild hchild)) _ p

theorem addFragment (p : Publisher ω) (path : Path) (label : Option String) (parent : RecordId) :
    Grows p.records.size p (p.addFragment path label parent).1 :=
  (push p _).trans (addChild _ parent (Nat.le_refl _))

theorem addFieldSet (p : Publisher ω) (path : Path) (fragments : List RecordId) :
    Grows p.records.size p (p.addFieldSet path fragments).1 := by
  refine (push p _).trans (foldl (fun p id => modifyFragment p id fun r => ?_) fragments _)
  refine .fragment rfl rfl (.refl _) (.addNew (Nat.le_refl _)) (fun set hset => ?_) (List.Subset.refl _) fun h => h
  rcases mem_addNew.1 hset with hset | rfl
  · exact Or.inl hset
  · exact Or.inr (Nat.le_refl _)

theorem addItems (p : Publisher ω) (stream : StreamId) (path : Path) (parent : RecordId) :
    Grows p.records.size p (p.addItems stream path parent).1 :=
  (push p _).trans (addChild _ parent (Nat.le_refl _))

theorem addStream (p : Publisher ω) (path : Path) (label : Option String) (hook : Option HookId) :
    Grows n p (p.addStream path label hook).1 where
  records j r hr := ⟨r, hr, Record.Grows.refl r⟩
  streams j s hs := by
    refine ⟨s, ?_, rfl, rfl, List.Subset.refl _⟩
    have hlt : j.index < p.streams.size := by
      by_contra hge
      rw [stream?, Array.getElem?_eq_none (by omega)] at hs
      exact absurd hs (by simp)
    show (p.streams.push _)[j.index]? = some s
    rw [Array.getElem?_push_lt hlt, ← Array.getElem?_eq_getElem hlt]
    exact hs
  closed := rfl

theorem release (p : Publisher ω) (id : RecordId) : Grows n p (p.release id) := by
  unfold Publisher.release
  split
  · exact ⟨fun _ r h => ⟨r, h, Record.Grows.refl r⟩, fun _ s h => ⟨s, h, rfl, rfl, List.Subset.refl _⟩, rfl⟩
  · exact refl p

theorem finishFieldSet (p : Publisher ω) (set fragment : RecordId) : Grows n p (p.finishFieldSet set fragment) :=
  modifyFragment p fragment fun _ => .fragment rfl rfl (.refl _) (.refl _)
    (fun _ hset => Or.inl (List.mem_of_mem_filter hset)) (List.Subset.refl _) fun h => h

theorem completeFieldSet (p : Publisher ω) (id : RecordId) (data : Json) : Grows n p (p.completeFieldSet id data) := by
  refine (modifyRecord p id fun r => ?_).trans (foldl (fun p fragment => ?_) _ _)
  · cases r
    case fieldSet r => exact .fieldSet rfl rfl fun h => h
    all_goals exact Record.Grows.refl _
  · refine (finishFieldSet p id fragment).trans ?_
    dsimp only
    split
    · split
      · exact release _ fragment
      · exact refl _
    · exact refl _

theorem failFieldSet (p : Publisher ω) (id : RecordId) (e : Error) : Grows n p (p.failFieldSet id e) := by
  refine foldl (fun p fragment => ?_) _ p
  refine ((finishFieldSet p id fragment).trans (modifyFragment _ fragment fun r => ?_)).trans (release _ fragment)
  exact .fragment rfl rfl (.refl _) (.refl _) (fun _ => Or.inl) (List.subset_append_left _ _) fun h => h

theorem completeItems (p : Publisher ω) (id : RecordId) (items : List Json) :
    Grows n p (p.completeItems id items) := by
  refine (modifyItems p id fun r => ?_).trans (release _ id)
  exact .items rfl rfl (.refl _) (fun _ => rfl) (fun h => h) fun h => h

theorem modifyStream (p : Publisher ω) (stream : StreamId) {f : StreamRecord → StreamRecord}
    (hf : ∀ s, (f s).path = s.path ∧ (f s).label = s.label ∧ s.errors ⊆ (f s).errors) :
    Grows n p { p with streams := p.streams.modify stream.index f } where
  records j r hr := ⟨r, hr, Record.Grows.refl r⟩
  streams j s hs := by
    show ∃ s', (p.streams.modify stream.index f)[j.index]? = some s' ∧ _
    rw [Array.getElem?_modify]
    split
    · refine ⟨f s, ?_, hf s⟩
      show p.streams[j.index]?.map f = some (f s)
      rw [show p.streams[j.index]? = some s from hs]
      rfl
    · exact ⟨s, hs, rfl, rfl, List.Subset.refl _⟩
  closed := rfl

theorem failItems (p : Publisher ω) (id : RecordId) (e : Error) : Grows n p (p.failItems id e).1 := by
  have hitems := modifyItems (n := n) p id (f := fun r => { r with final := true, completed := true }) fun _ =>
    .items rfl rfl (.refl _) (fun _ => rfl) (fun _ => rfl) fun h => h
  unfold Publisher.failItems
  split
  · refine Grows.trans ?_ (release _ id)
    exact hitems.trans (modifyStream _ _ (f := fun s => { s with errors := s.errors ++ [e] }) fun _ =>
      ⟨rfl, rfl, List.subset_append_left _ _⟩)
  · exact refl p

theorem setFinal (p : Publisher ω) (id : RecordId) : Grows n p (p.setFinal id) :=
  modifyItems p id fun _ => .items rfl rfl (.refl _) (fun h => h) (fun _ => rfl) fun h => h

theorem setEnd (p : Publisher ω) (id : RecordId) : Grows n p (p.setEnd id) :=
  modifyItems p id fun _ => .items rfl rfl (.refl _) (fun h => h) (fun _ => rfl) fun h => h

theorem retireItems (p : Publisher ω) (id : RecordId) : Grows n p (p.retireItems id) := by
  refine (modifyItems p id fun r => ?_).trans (release _ id)
  exact .items rfl rfl (.refl _) (fun _ => rfl) (fun h => h) fun h => h

theorem addError (p : Publisher ω) (id : RecordId) (e : Error) : Grows n p (p.addError id e) :=
  modifyRecord p id (Record.Grows.addError e)

theorem filter (p : Publisher ω) (path : Path) (id : RecordId) : Grows n p (p.filter path id).1 :=
  foldl (fun p id => modifyRecord p id Record.Grows.setFiltered) _ p

end Grows

end Publisher

end GraphQL
