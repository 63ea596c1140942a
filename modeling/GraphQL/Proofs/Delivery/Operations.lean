import GraphQL.Delivery.Output
import GraphQL.Proofs.Delivery.Entries

/-!
# Operations of a publisher

All that is done to a publisher is a series of operations (`Publisher.Operation`), and each look for a result emits sets of
fields (`Publisher.emissions`), whose entries are the deferred ones of the result (`Publisher.deferred_nextResult?`).
`Publisher.Performs` says which publisher is there after a series of operations, and what was emitted until then.
-/

namespace GraphQL

/-- The entry for a set of fields, if it is one. -/
def IncrementalEntry.deferred? : IncrementalEntry → Option DeferEntry
  | .defer entry => some entry
  | .stream _ => none

namespace Publisher

/-- What a publisher is asked to do. -/
inductive Operation (ω : Type) where
  | addFragment (path : Path) (label : Option String) (parent : RecordId)
  | addFieldSet (path : Path) (fragments : List RecordId)
  | addStream (path : Path) (label : Option String) (hook : Option HookId)
  | addItems (stream : StreamId) (path : Path) (parent : RecordId)
  | completeFieldSet (id : RecordId) (data : Json)
  | failFieldSet (id : RecordId) (error : Error)
  | completeItems (id : RecordId) (items : List Json)
  | failItems (id : RecordId) (error : Error)
  | setFinal (id : RecordId)
  | setEnd (id : RecordId)
  | retireItems (id : RecordId)
  | addError (id : RecordId) (error : Error)
  | filter (nullPath : Path) (erroring : RecordId)
  | spawn (work : ω)
  | takeInbox
  | close
  | respond
  | respondError
  | nextResult

namespace Operation

variable {ω : Type}

/-- The set of fields that is completed, with its data. -/
def completion? : Operation ω → Option (RecordId × Json)
  | completeFieldSet id data => some (id, data)
  | _ => none

/-- The set of fields that is completed or failed. -/
def settled? : Operation ω → Option RecordId
  | completeFieldSet id _ => some id
  | failFieldSet id _ => some id
  | _ => none

end Operation

variable {ω : Type} (p : Publisher ω)

/-- Closes the publisher, whose work is dropped. -/
def shut : Publisher ω := { p with inbox := [], closed := true }

/-- The publisher after an operation. -/
def perform : Operation ω → Publisher ω
  | .addFragment path label parent => (p.addFragment path label parent).1
  | .addFieldSet path fragments => (p.addFieldSet path fragments).1
  | .addStream path label hook => (p.addStream path label hook).1
  | .addItems stream path parent => (p.addItems stream path parent).1
  | .completeFieldSet id data => p.completeFieldSet id data
  | .failFieldSet id error => p.failFieldSet id error
  | .completeItems id items => p.completeItems id items
  | .failItems id error => (p.failItems id error).1
  | .setFinal id => p.setFinal id
  | .setEnd id => p.setEnd id
  | .retireItems id => p.retireItems id
  | .addError id error => p.addError id error
  | .filter nullPath erroring => (p.filter nullPath erroring).1
  | .spawn work => if p.closed then p else { p with inbox := p.inbox ++ [work] }
  | .takeInbox => { p with inbox := [] }
  | .close => p.shut
  | .respond =>
    let q := (p.publishChildren .initial).takeErrors.1
    if q.hasPending then q else q.shut
  | .respondError => p.takeErrors.1.shut
  | .nextResult => p.nextResult?.1

/-! ### What a look for a result emits -/

/-- The sets of fields that are sent with the deliveries of some records, when some others are gone already, each with the
record with which it is sent. -/
def emitting (p : Publisher ω) : (gone ids : List RecordId) → List (RecordId × RecordId)
  | _, [] => []
  | gone, id :: rest =>
    ((p.sends gone id).filter p.isUnsent).map (id, ·) ++ p.emitting (gone ++ p.sends gone id) rest

/-- The sets of fields that the next look for a result emits, each with the fragment that is processed then. -/
def emissions : List (RecordId × RecordId) := p.emitting [] p.released

/-- The entry of a set of fields that is emitted with a fragment. -/
def emissionEntry (e : RecordId × RecordId) : DeferEntry :=
  match p.record? e.2 with
  | some (.fieldSet r) => ⟨r.data.getD .null, r.path, p.labelOf e.1, r.errors⟩
  | _ => default

/-- The sets of fields that an operation emits. -/
def emitted : Operation ω → List (RecordId × RecordId)
  | .nextResult => p.emissions
  | _ => []

/-- A publisher that was new at first has performed operations, each of which was allowed, and emitted sets of fields. -/
inductive Performs (allowed : Publisher ω → Operation ω → Prop) :
    List (Operation ω) → List (RecordId × RecordId) → Publisher ω → Prop
  | start : Performs allowed [] [] {}
  | step {ops emitted p op} (h : Performs allowed ops emitted p) (hop : allowed p op) :
      Performs allowed (ops ++ [op]) (emitted ++ p.emitted op) (p.perform op)

variable {p} {gone ids : List RecordId}

theorem isUnsent_iff {id : RecordId} :
    p.isUnsent id = true ↔ ∃ r, p.record? id = some (.fieldSet r) ∧ r.sent = false := by
  unfold isUnsent
  constructor
  · intro h
    split at h
    · rename_i r hr
      exact ⟨r, hr, by simpa using h⟩
    · exact absurd h (by simp)
  · rintro ⟨r, hr, hsent⟩
    simp [hr, hsent]

/-- What is sent with the delivery of a record is a set of fields of this fragment that was not sent, or the record itself. -/
theorem mem_sends {id s : RecordId} (h : s ∈ p.sends gone id) : s ∉ gone ∧ p.isUnsent s = true ∧
      (∃ r, p.record? id = some (.fragment r) ∧ r.errors = [] ∧ s ∈ r.fieldSets) ∨
    p.isUnsent s = false ∧ ∃ r, p.record? s = some (.items r) := by
  unfold sends at h
  split at h
  · rename_i r hr
    split at h
    · exact absurd h List.not_mem_nil
    · rw [List.mem_singleton.1 h]
      exact .inr ⟨by unfold isUnsent; rw [hr], r, hr⟩
  · rename_i r hr
    split at h
    · rename_i herrors
      obtain ⟨hmem, hsends⟩ := List.mem_filter.1 h
      rw [Bool.and_eq_true, decide_eq_true_eq] at hsends
      exact .inl ⟨hsends.1, hsends.2, r, hr, List.isEmpty_iff.1 herrors, hmem⟩
    · exact absurd h List.not_mem_nil
  · exact absurd h List.not_mem_nil

/-- What is emitted is a set of fields of a fragment without errors, and was not sent. -/
theorem mem_emitting {e : RecordId × RecordId} (h : e ∈ p.emitting gone ids) : e.1 ∈ ids ∧ e.2 ∉ gone ∧
    p.isUnsent e.2 = true ∧ ∃ r, p.record? e.1 = some (.fragment r) ∧ r.errors = [] ∧ e.2 ∈ r.fieldSets := by
  induction ids generalizing gone with
  | nil => exact absurd h List.not_mem_nil
  | cons id rest ih =>
    rcases List.mem_append.1 h with h | h
    · obtain ⟨s, hs, rfl⟩ := List.mem_map.1 h
      obtain ⟨hsends, hunsent⟩ := List.mem_filter.1 hs
      rcases mem_sends hsends with ⟨hgone, -, hr⟩ | ⟨hsent, -⟩
      · exact ⟨List.mem_cons_self, hgone, hunsent, hr⟩
      · exact absurd (hunsent.symm.trans hsent) (by simp)
    · obtain ⟨hid, hgone, hunsent, hr⟩ := ih h
      have hgone' : e.2 ∉ gone := fun hmem => hgone (List.mem_append_left _ hmem)
      exact ⟨List.mem_cons_of_mem _ hid, hgone', hunsent, hr⟩

/-- The sets of fields among the records that are sent are those that are emitted. -/
theorem mem_map_emitting {s : RecordId} :
    s ∈ (p.emitting gone ids).map Prod.snd ↔ s ∈ (p.sending gone ids).map Prod.fst ∧ p.isUnsent s = true := by
  induction ids generalizing gone with
  | nil => simp [emitting, sending]
  | cons id rest ih =>
    have hemits : (((p.sends gone id).filter p.isUnsent).map (id, ·)).map Prod.snd = (p.sends gone id).filter p.isUnsent := by
      rw [List.map_map]
      exact List.map_id _
    have hsends : ((p.sends gone id).map (·, p.labelOf id)).map Prod.fst = p.sends gone id := by
      rw [List.map_map]
      exact List.map_id _
    rw [emitting, sending, List.map_append, List.map_append, hemits, hsends, List.mem_append, List.mem_append, ih,
      List.mem_filter, or_and_right]

/-- All sets of a fragment without errors that were not sent are emitted, unless they are gone. -/
theorem mem_emitting_of_mem {id s : RecordId} {r : FragmentRecord} (hid : id ∈ ids) (hr : p.record? id = some (.fragment r))
    (herrors : r.errors = []) (hs : s ∈ r.fieldSets) (hunsent : p.isUnsent s = true) :
    s ∈ gone ∨ s ∈ (p.emitting gone ids).map Prod.snd := by
  induction ids generalizing gone with
  | nil => exact absurd hid List.not_mem_nil
  | cons first rest ih =>
    by_cases hgone : s ∈ gone
    · exact .inl hgone
    · right
      rw [emitting, List.map_append, List.mem_append]
      by_cases hfirst : s ∈ p.sends gone first
      · left
        exact List.mem_map.2 ⟨(first, s), List.mem_map_of_mem (List.mem_filter.2 ⟨hfirst, hunsent⟩), rfl⟩
      · right
        have hrest : id ∈ rest := by
          refine (List.mem_cons.1 hid).resolve_left ?_
          rintro rfl
          refine hfirst ?_
          unfold sends
          rw [hr]
          simp [herrors, hs, hgone, hunsent]
        have hgone' : s ∉ gone ++ p.sends gone first := by
          simp [hgone, hfirst]
        exact (ih hrest).resolve_left hgone'

/-- No set of fields is emitted twice. -/
theorem nodup_emitting (honce : p.ListsOnce) (gone ids : List RecordId) : ((p.emitting gone ids).map Prod.snd).Nodup := by
  induction ids generalizing gone with
  | nil => exact List.nodup_nil
  | cons id rest ih =>
    have hemits : (((p.sends gone id).filter p.isUnsent).map (id, ·)).map Prod.snd = (p.sends gone id).filter p.isUnsent := by
      rw [List.map_map]
      exact List.map_id _
    have hsends : (p.sends gone id).Nodup := by
      unfold sends
      split
      · split
        · exact List.nodup_nil
        · exact List.nodup_singleton _
      · rename_i r hr
        split
        · exact (honce id r hr).filter _
        · exact List.nodup_nil
      · exact List.nodup_nil
    rw [emitting, List.map_append, hemits, List.nodup_append]
    refine ⟨hsends.filter _, ih _, fun s hs s' hs' heq => ?_⟩
    obtain ⟨e, he, rfl⟩ := List.mem_map.1 hs'
    obtain ⟨-, hgone, -⟩ := mem_emitting he
    exact hgone (heq ▸ List.mem_append_right _ (List.mem_filter.1 hs).1)

/-- The deferred entries among those of records that are sent are those of the sets that are emitted. -/
theorem filterMap_sending (gone ids : List RecordId) :
    ((p.sending gone ids).map p.entryOf).filterMap IncrementalEntry.deferred? =
      (p.emitting gone ids).map p.emissionEntry := by
  induction ids generalizing gone with
  | nil => rfl
  | cons id rest ih =>
    rw [sending, emitting, List.map_append, List.filterMap_append, ih, List.map_append]
    refine congrArg (· ++ _) ?_
    have hsends : ∀ s ∈ p.sends gone id, (p.entryOf (s, p.labelOf id)).deferred? =
        if p.isUnsent s then some (p.emissionEntry (id, s)) else none := by
      intro s hs
      rcases mem_sends hs with ⟨-, hunsent, -⟩ | ⟨hunsent, r, hr⟩
      · obtain ⟨r, hr, -⟩ := isUnsent_iff.1 hunsent
        rw [if_pos hunsent]
        unfold entryOf emissionEntry
        rw [hr]
        rfl
      · rw [if_neg (by rw [hunsent]; exact Bool.false_ne_true)]
        unfold entryOf
        rw [hr]
        rfl
    generalize p.sends gone id = sends at hsends ⊢
    induction sends with
    | nil => rfl
    | cons s sends ih =>
      obtain ⟨hs, hrest⟩ := List.forall_mem_cons.1 hsends
      cases hunsent : p.isUnsent s with
      | true =>
        rw [if_pos hunsent] at hs
        simpa [hs, hunsent] using ih hrest
      | false =>
        rw [if_neg (by rw [hunsent]; exact Bool.false_ne_true)] at hs
        simpa [hs, hunsent] using ih hrest

/-- The deferred entries of a result are those of what is emitted; without a result, nothing is emitted. -/
theorem deferred_nextResult? (hnodup : p.released.Nodup) (honce : p.ListsOnce) :
    ((p.nextResult?.2.map SubsequentResult.incremental).getD []).filterMap IncrementalEntry.deferred? =
      p.emissions.map p.emissionEntry := by
  rw [incremental_nextResult? hnodup honce]
  exact filterMap_sending [] p.released

end Publisher

/-! ### Operations of a stage -/

namespace Stage

variable {ω ε : Type} [Work ω] (s : Stage ω ε)

omit [Work ω] in
theorem publisher_fireAny (hook : Option HookId) : (s.fireAny hook).publisher = s.publisher := by
  unfold fireAny
  split
  · unfold fire
    split <;> rfl
  · rfl

/-- Work that is dropped leaves the publisher as it is. -/
theorem publisher_dropAll (work : List ω) : (s.dropAll work).publisher = s.publisher := by
  have hnote : ∀ (names : List String) (t : Stage ω ε), (t.noteClosed names).publisher = t.publisher := fun names t =>
    List.foldlRecOn (motive := fun u : Stage ω ε => u.publisher = t.publisher) names _ rfl fun _ hu _ _ => hu
  refine List.foldlRecOn (motive := fun t : Stage ω ε => t.publisher = s.publisher) work _ rfl fun t ht w _ => ?_
  exact (publisher_fireAny _ _).trans ((hnote _ t).trans ht)

theorem publisher_closeInbox : s.closeInbox.publisher = s.publisher.perform .close := publisher_dropAll _ _

theorem publisher_spawn (work : ω) : (s.spawn work).publisher = s.publisher.perform (.spawn work) := by
  unfold spawn Publisher.perform
  split
  · exact publisher_dropAll s [work]
  · rfl

/-- The answer of a stage is that of its publisher. -/
theorem publisher_answerData (data : Json) : (s.answerData data).1.publisher = s.publisher.perform .respond := by
  unfold answerData Publisher.perform
  dsimp only
  split
  · rfl
  · exact (publisher_dropAll _ _).trans (publisher_closeInbox _)

theorem publisher_answerError (error : Error) : (s.answerError error).1.publisher = s.publisher.perform .respondError := by
  have hpublisher : s.dropTaken.publisher = s.publisher := publisher_dropAll _ _
  unfold answerError
  dsimp only
  rw [hpublisher]
  exact publisher_closeInbox _

end Stage

end GraphQL
