import GraphQL.Proofs.Delivery.Results

/-!
# What a result sends

A look for a result sends records one after the other: for each released record in turn, its items, or those of its sets
of fields that were not sent before.  `Publisher.sent` lists them, each with the label that its entry gets.  The entries
of the result are those of what is sent (`incremental_nextResult?`), and a look changes nothing else in the records
(`record?_nextResult?`).
-/

namespace GraphQL

/-- A record once it was sent: what it delivers is taken out of it. -/
def Record.emptied : Record → Record
  | fieldSet r => fieldSet { r with sent := true, data := none, errors := [] }
  | items r => items { r with items := [], errors := [] }
  | r => r

namespace Publisher

variable {ω : Type} {p q : Publisher ω} {id : RecordId}

/-- The record is a set of fields that was not sent. -/
def isUnsent (p : Publisher ω) (id : RecordId) : Bool :=
  match p.record? id with
  | some (.fieldSet r) => !r.sent
  | _ => false

/-- The records that are sent with the delivery of a record, when some others are gone already. -/
def sends (p : Publisher ω) (gone : List RecordId) (id : RecordId) : List RecordId :=
  match p.record? id with
  | some (.items r) => if r.endsStream || r.items.isEmpty then [] else [id]
  | some (.fragment r) =>
    if r.errors.isEmpty then r.fieldSets.filter fun set => decide (set ∉ gone) && p.isUnsent set else []
  | _ => []

/-- The label that is sent with the delivery of a record. -/
def labelOf (p : Publisher ω) (id : RecordId) : Option String :=
  match p.record? id with
  | some (.items r) => ((p.stream? r.stream).getD default).label
  | some (.fragment r) => r.label
  | _ => none

/-- What is sent with the delivery of some records, each with its label. -/
def sending (p : Publisher ω) : (gone ids : List RecordId) → List (RecordId × Option String)
  | _, [] => []
  | gone, id :: rest => (p.sends gone id).map (·, p.labelOf id) ++ p.sending (gone ++ p.sends gone id) rest

/-- What the next look for a result sends. -/
def sent (p : Publisher ω) : List (RecordId × Option String) := p.sending [] p.released

/-- The entry of a record that is sent. -/
def entryOf (p : Publisher ω) (sent : RecordId × Option String) : IncrementalEntry :=
  match p.record? sent.1 with
  | some (.fieldSet r) => .defer ⟨r.data.getD .null, r.path, sent.2, r.errors⟩
  | some (.items r) => .stream ⟨r.items, r.path, sent.2, r.errors⟩
  | _ => default

/-- Each fragment lists its sets of fields once. -/
def ListsOnce (p : Publisher ω) : Prop := ∀ id r, p.record? id = some (.fragment r) → r.fieldSets.Nodup

/-- The publisher after some records were sent. -/
private structure After (p : Publisher ω) (gone : List RecordId) (q : Publisher ω) : Prop where
  record? : ∀ id, q.record? id = if id ∈ gone then (p.record? id).map Record.emptied else p.record? id
  streams : q.streams = p.streams

namespace After

variable {gone : List RecordId}

private theorem fragment (h : p.After gone q) {r : FragmentRecord} (hr : p.record? id = some (.fragment r)) :
    q.record? id = some (.fragment r) := by
  rw [h.record?, hr]
  split <;> rfl

private theorem of_emptied (h : p.After gone q) (hid : q.record? id = (p.record? id)) {f : Record → Record}
    (hf : ∀ r, p.record? id = some r → f r = r.emptied) : p.After (gone ++ [id]) (q.modifyRecord id f) := by
  refine ⟨fun j => ?_, h.streams⟩
  rw [record?_modifyRecord]
  by_cases hj : id = j
  · subst hj
    rw [if_pos rfl, if_pos (List.mem_append_right _ (List.mem_singleton_self id)), hid]
    cases hr : p.record? id with
    | none => rfl
    | some r => exact congrArg some (hf r hr)
  · rw [if_neg hj, h.record? j]
    have hiff : j ∈ gone ++ [id] ↔ j ∈ gone := by
      rw [List.mem_append, List.mem_singleton]
      exact or_iff_left fun heq => hj heq.symm
    simp only [hiff]

/-- One set of fields is sent, unless it is gone or was sent before. -/
private theorem sendFieldSet (h : p.After gone q) (label : Option String) (entries : List IncrementalEntry)
    (set : RecordId) :
    p.After (gone ++ if decide (set ∉ gone) && p.isUnsent set then [set] else [])
        (Publisher.sendFieldSet label (q, entries) set).1 ∧
      (Publisher.sendFieldSet label (q, entries) set).2 =
        entries ++ (if decide (set ∉ gone) && p.isUnsent set then [set] else []).map fun s => p.entryOf (s, label) := by
  have hskip : ∀ {b : Bool}, b = false → Publisher.sendFieldSet label (q, entries) set = (q, entries) →
      p.After (gone ++ if b then [set] else []) (Publisher.sendFieldSet label (q, entries) set).1 ∧
        (Publisher.sendFieldSet label (q, entries) set).2 =
          entries ++ (if b then [set] else []).map fun s => p.entryOf (s, label) := by
    rintro b rfl heq
    rw [heq]
    simpa using h
  by_cases hgone : set ∈ gone
  · refine hskip (by simp [hgone]) ?_
    unfold Publisher.sendFieldSet
    dsimp only
    rw [h.record?, if_pos hgone]
    cases hr : p.record? set with
    | none => rfl
    | some r => cases r <;> rfl
  · have hsame : q.record? set = p.record? set := by rw [h.record?, if_neg hgone]
    cases hr : p.record? set with
    | none =>
      refine hskip (by simp [isUnsent, hr]) ?_
      unfold Publisher.sendFieldSet
      dsimp only
      rw [hsame, hr]
    | some record =>
      cases record with
      | fieldSet r =>
        cases hsent : r.sent with
        | true =>
          refine hskip (by simp [isUnsent, hr, hsent]) ?_
          unfold Publisher.sendFieldSet
          dsimp only
          rw [hsame, hr]
          exact if_pos hsent
        | false =>
          have hsends : (decide (set ∉ gone) && p.isUnsent set) = true := by simp [isUnsent, hr, hsent, hgone]
          rw [if_pos hsends]
          unfold Publisher.sendFieldSet
          dsimp only
          rw [hsame, hr]
          dsimp only
          rw [if_neg (by simp [hsent])]
          refine ⟨h.of_emptied hsame fun r' hr' => ?_, ?_⟩
          · rw [hr] at hr'
            cases hr'
            rfl
          · simp [entryOf, hr]
      | _ =>
        refine hskip (by simp [isUnsent, hr]) ?_
        unfold Publisher.sendFieldSet
        dsimp only
        rw [hsame, hr]

/-- Sets of fields that are different are sent one after the other. -/
private theorem foldl_sendFieldSet (h : p.After gone q) (label : Option String) (entries : List IncrementalEntry)
    {sets : List RecordId} (hnodup : sets.Nodup) :
    p.After (gone ++ sets.filter fun set => decide (set ∉ gone) && p.isUnsent set)
        (sets.foldl (Publisher.sendFieldSet label) (q, entries)).1 ∧
      (sets.foldl (Publisher.sendFieldSet label) (q, entries)).2 =
        entries ++ (sets.filter fun set => decide (set ∉ gone) && p.isUnsent set).map fun s => p.entryOf (s, label) := by
  induction sets generalizing gone q entries with
  | nil => simpa using h
  | cons set rest ih =>
    obtain ⟨hnot, hrest⟩ := List.nodup_cons.1 hnodup
    obtain ⟨h₁, hentries⟩ := h.sendFieldSet label entries set
    -- what is sent of the rest does not depend on the first set
    have hfilter : (rest.filter fun s =>
        decide (s ∉ gone ++ if decide (set ∉ gone) && p.isUnsent set then [set] else []) && p.isUnsent s) =
        rest.filter fun s => decide (s ∉ gone) && p.isUnsent s := by
      refine List.filter_congr fun s hs => ?_
      have hne : s ≠ set := fun heq => hnot (heq ▸ hs)
      split <;> simp [hne]
    obtain ⟨h₂, hentries₂⟩ := ih h₁ (Publisher.sendFieldSet label (q, entries) set).2 hrest
    rw [hfilter] at h₂ hentries₂
    have hcons : (set :: rest).filter (fun s => decide (s ∉ gone) && p.isUnsent s) =
        (if decide (set ∉ gone) && p.isUnsent set then [set] else []) ++
          rest.filter fun s => decide (s ∉ gone) && p.isUnsent s := by
      rw [List.filter_cons]
      split <;> rfl
    rw [hcons, ← List.append_assoc, List.map_append, ← List.append_assoc, ← hentries]
    exact ⟨h₂, hentries₂⟩

/-- A released record is delivered, whose items are not gone. -/
private theorem deliver (h : p.After gone q) (honce : p.ListsOnce)
    (hid : ∀ r, p.record? id = some (.items r) → id ∉ gone) :
    p.After (gone ++ p.sends gone id) (q.deliver id).1 ∧
      (q.deliver id).2.1 = (p.sends gone id).map fun s => p.entryOf (s, p.labelOf id) := by
  have hnothing : p.sends gone id = [] → (q.deliver id).1 = q ∧ (q.deliver id).2.1 = [] →
      p.After (gone ++ p.sends gone id) (q.deliver id).1 ∧
        (q.deliver id).2.1 = (p.sends gone id).map fun s => p.entryOf (s, p.labelOf id) := by
    rintro hnil ⟨hq, hentries⟩
    rw [hnil, hq, hentries, List.append_nil]
    exact ⟨h, rfl⟩
  cases hr : p.record? id with
  | none =>
    have hq : q.record? id = none := by rw [h.record?, hr]; split <;> rfl
    exact hnothing (by unfold sends; rw [hr]) (by unfold Publisher.deliver; rw [hq]; exact ⟨rfl, rfl⟩)
  | some record =>
    cases record with
    | initial r =>
      have hq : q.record? id = some (.initial r) := by rw [h.record?, hr]; split <;> rfl
      exact hnothing (by unfold sends; rw [hr]) (by unfold Publisher.deliver; rw [hq]; exact ⟨rfl, rfl⟩)
    | fieldSet r =>
      have hq : ∃ r', q.record? id = some (.fieldSet r') := by
        rw [h.record?, hr]
        split
        · exact ⟨_, rfl⟩
        · exact ⟨_, rfl⟩
      obtain ⟨r', hq⟩ := hq
      exact hnothing (by unfold sends; rw [hr]) (by unfold Publisher.deliver; rw [hq]; exact ⟨rfl, rfl⟩)
    | fragment r =>
      have hq := h.fragment hr
      cases herrors : r.errors.isEmpty with
      | false =>
        refine hnothing (by unfold sends; rw [hr]; simp [herrors]) ?_
        unfold Publisher.deliver
        rw [hq]
        simp [herrors]
      | true =>
        have hsends : p.sends gone id = r.fieldSets.filter fun set => decide (set ∉ gone) && p.isUnsent set := by
          unfold sends
          rw [hr]
          simp [herrors]
        have hlabel : p.labelOf id = r.label := by
          unfold labelOf
          rw [hr]
        rw [hsends, hlabel]
        unfold Publisher.deliver
        rw [hq]
        dsimp only
        rw [if_neg (by simp [herrors])]
        exact h.foldl_sendFieldSet r.label [] (honce id r hr)
    | items r =>
      have hsame : q.record? id = p.record? id := by rw [h.record?, if_neg (hid r hr)]
      have hstream : q.stream? r.stream = p.stream? r.stream := by
        unfold stream?
        rw [h.streams]
      cases hempty : r.endsStream || r.items.isEmpty with
      | true =>
        refine hnothing (by unfold sends; rw [hr]; simp only [hempty]; rfl) ?_
        unfold Publisher.deliver
        rw [hsame, hr]
        simp only [hempty]
        exact ⟨rfl, rfl⟩
      | false =>
        have hsends : p.sends gone id = [id] := by
          unfold sends
          rw [hr]
          simp only [hempty]
          rfl
        have hlabel : p.labelOf id = ((p.stream? r.stream).getD default).label := by
          unfold labelOf
          rw [hr]
        have hentry : p.entryOf (id, p.labelOf id) = .stream ⟨r.items, r.path, p.labelOf id, r.errors⟩ := by
          unfold entryOf
          rw [hr]
        rw [hsends, List.map_singleton, hentry, hlabel]
        unfold Publisher.deliver
        rw [hsame, hr]
        simp only [hempty, hstream]
        refine ⟨h.of_emptied hsame fun r' hr' => ?_, rfl⟩
        rw [hr] at hr'
        cases hr'
        rfl

end After

/-- Making the children of a record pending changes no record. -/
theorem records_publishChildren (p : Publisher ω) (id : RecordId) :
    (p.publishChildren id).records = p.records ∧ (p.publishChildren id).streams = p.streams := by
  refine List.foldlRecOn (motive := fun q : Publisher ω => q.records = p.records ∧ q.streams = p.streams) _ _ ⟨rfl, rfl⟩
    fun q hq child _ => ?_
  unfold publish
  dsimp only
  split <;> exact hq

private theorem After.foldl_deliverNext {gone : List RecordId} (h : p.After gone q) (honce : p.ListsOnce)
    {ids : List RecordId} (hnodup : ids.Nodup) (hids : ∀ id ∈ ids, ∀ r, p.record? id = some (.items r) → id ∉ gone)
    (incremental : List IncrementalEntry) (completed : List CompletedEntry) :
    p.After (gone ++ (p.sending gone ids).map Prod.fst) (ids.foldl deliverNext (q, incremental, completed)).1 ∧
      (ids.foldl deliverNext (q, incremental, completed)).2.1 =
        incremental ++ (p.sending gone ids).map p.entryOf := by
  induction ids generalizing gone q incremental completed with
  | nil => simpa [sending] using h
  | cons id rest ih =>
    obtain ⟨hnot, hrest⟩ := List.nodup_cons.1 hnodup
    obtain ⟨hrecords, hstreams⟩ := records_publishChildren q id
    have h₁ : p.After gone (q.publishChildren id) :=
      ⟨fun j => by rw [← h.record? j]; unfold Publisher.record?; rw [hrecords], hstreams.trans h.streams⟩
    obtain ⟨h₂, hentries⟩ := h₁.deliver honce (hids id List.mem_cons_self)
    -- only sets of fields and the record itself are sent with it
    have hkept : ∀ j ∈ rest, ∀ r, p.record? j = some (.items r) → j ∉ gone ++ p.sends gone id := by
      intro j hj r hr hmem
      rcases List.mem_append.1 hmem with hmem | hmem
      · exact hids j (List.mem_cons_of_mem _ hj) r hr hmem
      · unfold sends at hmem
        split at hmem
        · split at hmem
          · exact absurd hmem (by simp)
          · rw [List.mem_singleton.1 hmem] at hj
            exact hnot hj
        · split at hmem
          · have hunsent := (Bool.and_eq_true _ _ ▸ (List.mem_filter.1 hmem).2).2
            rw [isUnsent, hr] at hunsent
            exact absurd hunsent (by simp)
          · exact absurd hmem (by simp)
        · exact absurd hmem (by simp)
    obtain ⟨h₃, hentries₃⟩ := ih h₂ hrest hkept (incremental ++ ((q.publishChildren id).deliver id).2.1)
      (completed ++ ((q.publishChildren id).deliver id).2.2)
    have hfirst : ((p.sends gone id).map (·, p.labelOf id)).map Prod.fst = p.sends gone id := by
      rw [List.map_map]
      exact List.map_id _
    have hown : ((p.sends gone id).map (·, p.labelOf id)).map p.entryOf = ((q.publishChildren id).deliver id).2.1 := by
      rw [hentries, List.map_map]
      rfl
    rw [sending, List.map_append, List.map_append, hfirst, hown, ← List.append_assoc, ← List.append_assoc]
    exact ⟨h₃, hentries₃⟩

section

variable (hnodup : p.released.Nodup) (honce : p.ListsOnce)
include hnodup honce

private theorem after_foldl_deliverNext :
    p.After (p.sent.map Prod.fst)
        (p.released.foldl deliverNext ({ p with released := [], pending := p.pending.filter (· ∉ p.released) }, [], [])).1 ∧
      (p.released.foldl deliverNext
        ({ p with released := [], pending := p.pending.filter (· ∉ p.released) }, [], [])).2.1 = p.sent.map p.entryOf :=
  have hstart : p.After [] { p with released := [], pending := p.pending.filter (· ∉ p.released) } :=
    ⟨fun _ => rfl, rfl⟩
  hstart.foldl_deliverNext honce hnodup (fun _ _ _ _ => List.not_mem_nil) [] []

/-- The entries of a result are those of what is sent; without a result, nothing is sent. -/
theorem incremental_nextResult? :
    (p.nextResult?.2.map SubsequentResult.incremental).getD [] = p.sent.map p.entryOf := by
  obtain ⟨-, hentries⟩ := after_foldl_deliverNext hnodup honce
  unfold Publisher.nextResult?
  split
  · rename_i hnil
    rw [List.isEmpty_iff] at hnil
    simp [sent, sending, hnil]
  · unfold processReleased
    dsimp only
    split
    · rename_i hempty
      simp only [Bool.and_eq_true, List.isEmpty_iff] at hempty
      rw [← hentries, hempty.1.1]
      rfl
    · exact hentries

/-- A look for a result takes what it sends out of the records, and changes nothing else in them. -/
theorem record?_nextResult? (id : RecordId) :
    p.nextResult?.1.record? id =
      if id ∈ p.sent.map Prod.fst then (p.record? id).map Record.emptied else p.record? id := by
  obtain ⟨hafter, -⟩ := after_foldl_deliverNext hnodup honce
  unfold Publisher.nextResult?
  split
  · rename_i hnil
    rw [List.isEmpty_iff] at hnil
    simp [sent, sending, hnil]
  · unfold processReleased
    dsimp only
    split <;> exact hafter.record? id

end

theorem Sound.incremental_nextResult? (h : p.Sound) (honce : p.ListsOnce) :
    (p.nextResult?.2.map SubsequentResult.incremental).getD [] = p.sent.map p.entryOf :=
  Publisher.incremental_nextResult? h.prompt.releasedNodup honce

theorem Sound.record?_nextResult? (h : p.Sound) (honce : p.ListsOnce) (id : RecordId) :
    p.nextResult?.1.record? id =
      if id ∈ p.sent.map Prod.fst then (p.record? id).map Record.emptied else p.record? id :=
  Publisher.record?_nextResult? h.prompt.releasedNodup honce id

end Publisher

end GraphQL
