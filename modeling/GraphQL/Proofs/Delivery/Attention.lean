import GraphQL.Proofs.Delivery.Operations

/-!
# Nothing that is ready waits

A record may become ready before it is pending, when it becomes pending, or later.  Whoever makes it ready releases it, but
only if it is pending; so whoever makes it pending has to look whether it is ready already.  `Publisher.Attends` says that
neither is forgotten, whatever records the operations are given.  The exception is `Publisher.addError`, which never
releases a record: it must not be given a fragment (`Publisher.not_attends_addError`).
-/

namespace GraphQL

namespace Publisher

variable {ω : Type} {p : Publisher ω} {id : RecordId} {f : Record → Record}

/-- What is released is pending, and what is pending and ready is released. -/
structure Attends (p : Publisher ω) : Prop where
  known : ∀ id ∈ p.pending, ∃ r, p.record? id = some r
  released : ∀ id ∈ p.released, id ∈ p.pending
  ready : ∀ id ∈ p.pending, ∀ r, p.record? id = some r → r.Ready → id ∈ p.released

/-! ### Records that change -/

/-- No attention is needed if records with other numbers do not change, and this one does not become ready. -/
theorem Attends.modifyRecord (h : p.Attends) (hready : ∀ r, p.record? id = some r → (f r).Ready → r.Ready) :
    (p.modifyRecord id f).Attends := by
  refine ⟨fun j hj => ?_, h.released, fun j hj r' hr' hr => ?_⟩
  · obtain ⟨r, hr⟩ := h.known j hj
    rw [record?_modifyRecord, hr]
    split <;> exact ⟨_, rfl⟩
  · rw [record?_modifyRecord] at hr'
    split at hr'
    · rename_i heq
      subst heq
      obtain ⟨r, hrec, rfl⟩ := Option.map_eq_some_iff.1 hr'
      exact h.ready id hj r hrec (hready r hrec hr)
    · exact h.ready j hj r' hr' hr

/-- A record that is released after the change may change as it likes. -/
theorem Attends.settle (h : p.Attends) (id : RecordId) (f : Record → Record) :
    ((p.modifyRecord id f).release id).Attends := by
  by_cases hid : id ∈ p.pending
  · have hrelease : (p.modifyRecord id f).release id =
        { p.modifyRecord id f with released := addNew p.released id } := if_pos hid
    rw [hrelease]
    refine ⟨fun j hj => ?_, fun j hj => ?_, fun j hj r' hr' hr => ?_⟩
    · obtain ⟨r, hr⟩ := h.known j hj
      show ∃ r, (p.modifyRecord id f).record? j = some r
      rw [record?_modifyRecord, hr]
      split <;> exact ⟨_, rfl⟩
    · rcases mem_addNew.1 hj with hj | rfl
      · exact h.released j hj
      · exact hid
    · refine mem_addNew.2 ?_
      by_cases heq : j = id
      · exact .inr heq
      · have hold : (p.modifyRecord id f).record? j = some r' := hr'
        rw [record?_modifyRecord, if_neg (Ne.symm heq)] at hold
        exact .inl (h.ready j hj r' hold hr)
  · have hrelease : (p.modifyRecord id f).release id = p.modifyRecord id f := if_neg hid
    rw [hrelease]
    refine ⟨fun j hj => ?_, h.released, fun j hj r' hr' hr => ?_⟩
    all_goals
      have hne : id ≠ j := fun heq => hid (heq ▸ hj)
    · rw [record?_modifyRecord, if_neg hne]
      exact h.known j hj
    · rw [record?_modifyRecord, if_neg hne] at hr'
      exact h.ready j hj r' hr' hr

/-- Only records, and what is pending and released, need attention. -/
theorem Attends.of_eq {q : Publisher ω} (h : p.Attends) (hrecords : q.records = p.records) (hpending : q.pending = p.pending)
    (hreleased : q.released = p.released) : q.Attends := by
  have hrecord : ∀ j, q.record? j = p.record? j := fun j => congrArg (·[j.index]?) hrecords
  refine ⟨fun j hj => ?_, fun j hj => ?_, fun j hj r hr => ?_⟩
  · rw [hrecord]
    exact h.known j (hpending ▸ hj)
  · rw [hpending]
    exact h.released j (hreleased ▸ hj)
  · rw [hreleased]
    exact h.ready j (hpending ▸ hj) r (hrecord j ▸ hr)

theorem Attends.modifyItems (h : p.Attends) {g : ItemsRecord → ItemsRecord} (hg : ∀ r, (g r).completed = r.completed) :
    (p.modifyItems id g).Attends := by
  refine h.modifyRecord fun r _ hready => ?_
  cases r with
  | items r => exact (hg r).symm.trans hready
  | _ => exact hready

/-- Items that are released after the change may change as they like. -/
theorem Attends.settleItems (h : p.Attends) (id : RecordId) (g : ItemsRecord → ItemsRecord) :
    ((p.modifyItems id g).release id).Attends :=
  h.settle id _

/-! ### New records -/

/-- A new record is not pending. -/
theorem Attends.push (h : p.Attends) (record : Record) : (p.push record).1.Attends := by
  have hold : ∀ j ∈ p.pending, (p.push record).1.record? j = p.record? j := by
    intro j hj
    obtain ⟨r, hr⟩ := h.known j hj
    have hne : j ≠ ⟨p.records.size⟩ := by
      rintro rfl
      exact Nat.lt_irrefl _ (lt_size_of_record? hr)
    rw [record?_push, if_neg hne]
  refine ⟨fun j hj => ?_, h.released, fun j hj r hr => ?_⟩
  · rw [hold j hj]
    exact h.known j hj
  · rw [hold j hj] at hr
    exact h.ready j hj r hr

theorem Attends.addChild (h : p.Attends) (parent child : RecordId) : (p.addChild parent child).Attends := by
  refine List.foldlRecOn (motive := Attends) _ _ h fun q hq id _ => hq.modifyRecord fun r _ hready => ?_
  cases r <;> exact hready

/-- A fragment that gets a set of fields waits for it. -/
theorem Attends.addFieldSet (h : p.Attends) (path : Path) (fragments : List RecordId) :
    (p.addFieldSet path fragments).1.Attends := by
  refine List.foldlRecOn (motive := Attends) fragments _ (h.push _) fun q hq id _ => hq.modifyRecord fun r _ hready => ?_
  cases r with
  | fragment r =>
    rcases hready with hnil | herrors
    · have hmem : (⟨p.records.size⟩ : RecordId) ∈ addNew r.unfinished ⟨p.records.size⟩ := mem_addNew.2 (.inr rfl)
      rw [show addNew r.unfinished ⟨p.records.size⟩ = [] from hnil] at hmem
      exact absurd hmem List.not_mem_nil
    · exact .inr herrors
  | _ => exact hready

/-! ### Completion -/

/-- The last set of fields that a fragment waits for releases it. -/
theorem Attends.completeFieldSet (h : p.Attends) (id : RecordId) (data : Json) : (p.completeFieldSet id data).Attends := by
  refine List.foldlRecOn (motive := Attends) _ _ (h.modifyRecord fun r _ hready => ?_) fun q hq fragment _ => ?_
  · cases r <;> exact hready
  · dsimp only
    split
    · rename_i r hr
      split
      · exact hq.settle fragment _
      · rename_i hne
        refine hq.modifyRecord fun r' hr' hready => ?_
        rw [Publisher.finishFieldSet, Publisher.modifyFragment, record?_modifyRecord, if_pos rfl, hr'] at hr
        cases r' with
        | fragment r' =>
          cases hr
          rcases hready with hnil | herrors
          · exact absurd (List.isEmpty_iff.2 hnil) hne
          · exact .inr herrors
        | _ => exact hready
    · rename_i hnone
      refine hq.modifyRecord fun r' hr' hready => ?_
      cases r' with
      | fragment r' =>
        refine absurd ?_ (hnone { r' with unfinished := r'.unfinished.filter (· ≠ id) })
        rw [Publisher.finishFieldSet, Publisher.modifyFragment, record?_modifyRecord, if_pos rfl, hr']
        rfl
      | _ => exact hready

/-- A set of fields that fails releases its fragments. -/
theorem Attends.failFieldSet (h : p.Attends) (id : RecordId) (e : Error) : (p.failFieldSet id e).Attends := by
  refine List.foldlRecOn (motive := Attends) _ _ h fun q hq fragment _ => ?_
  dsimp only
  rw [Publisher.finishFieldSet, Publisher.modifyFragment, Publisher.modifyFragment, modifyRecord_modifyRecord]
  exact hq.settle fragment _

theorem Attends.failItems (h : p.Attends) (id : RecordId) (e : Error) : (p.failItems id e).1.Attends := by
  unfold Publisher.failItems
  split
  · rename_i r _
    have hstreams : Attends { p with
        streams := p.streams.modify r.stream.index fun s => { s with errors := s.errors ++ [e] } } := h.of_eq rfl rfl rfl
    exact hstreams.settleItems id fun r => { r with final := true, completed := true }
  · exact h

/-- An error needs no attention, unless it makes a fragment ready. -/
theorem Attends.addError (h : p.Attends) (hid : ¬ p.IsFragment id) (e : Error) : (p.addError id e).Attends := by
  refine h.modifyRecord fun r hr hready => ?_
  cases r with
  | fragment r => exact absurd ⟨r, hr⟩ hid
  | _ => exact hready

/-- A fragment that waits goes on waiting when an error is added to it, although it is ready then. -/
theorem not_attends_addError (hid : p.IsFragment id) (hpending : id ∈ p.pending) (hreleased : id ∉ p.released) (e : Error) :
    ¬ (p.addError id e).Attends := by
  intro h
  obtain ⟨r, hr⟩ := hid
  have hr' : (p.addError id e).record? id = some (.fragment { r with errors := r.errors ++ [e] }) := by
    unfold Publisher.addError
    rw [record?_modifyRecord, if_pos rfl, hr]
    rfl
  exact hreleased (h.ready id hpending _ hr' (.inr (by simp)))

theorem Attends.filter (h : p.Attends) (path : Path) (id : RecordId) : (p.filter path id).1.Attends := by
  refine List.foldlRecOn (motive := Attends) _ _ h fun q hq id _ => hq.modifyRecord fun r _ hready => ?_
  cases r <;> exact hready

/-! ### Results -/

/-- Whatever becomes pending is released if it is ready by then. -/
theorem Attends.publish (h : p.Attends) (id : RecordId) : (p.publish id).Attends := by
  -- a record that becomes pending and is not released is not ready
  have hwait : ∀ r, p.record? id = some r → ¬ r.Ready → Attends { p with pending := addNew p.pending id } := by
    intro r hr hnot
    refine ⟨fun j hj => ?_, fun j hj => mem_addNew.2 (.inl (h.released j hj)), fun j hj r' hr' hready => ?_⟩
    · rcases mem_addNew.1 hj with hj | rfl
      · exact h.known j hj
      · exact ⟨r, hr⟩
    · rcases mem_addNew.1 hj with hj | rfl
      · exact h.ready j hj r' hr' hready
      · cases hr.symm.trans hr'
        exact absurd hready hnot
  have hpush : ∀ r, p.record? id = some r →
      Attends { p with released := addNew p.released id, pending := addNew p.pending id } := by
    intro r hr
    refine ⟨fun j hj => ?_, fun j hj => ?_, fun j hj r' hr' hready => ?_⟩
    · rcases mem_addNew.1 hj with hj | rfl
      · exact h.known j hj
      · exact ⟨r, hr⟩
    · exact mem_addNew.2 ((mem_addNew.1 hj).imp_left (h.released j))
    · exact mem_addNew.2 ((mem_addNew.1 hj).imp_left fun hj => h.ready j hj r' hr' hready)
  unfold Publisher.publish
  cases hr : p.record? id with
  | none => exact h
  | some r =>
    cases r with
    | initial r => exact h
    | fieldSet r => exact h
    | items r =>
      cases hcompleted : r.completed with
      | true => simpa [hcompleted] using hpush _ hr
      | false => simpa [hcompleted] using hwait _ hr (by simp [Record.Ready, hcompleted])
    | fragment r =>
      cases hready : r.unfinished.isEmpty || !r.errors.isEmpty with
      | true => simpa [hready] using hpush _ hr
      | false =>
        have hnot : ¬ (Record.fragment r).Ready := by
          simpa [Record.Ready] using hready
        simpa [hready] using hwait _ hr hnot

theorem Attends.publishChildren (h : p.Attends) (id : RecordId) : (p.publishChildren id).Attends :=
  List.foldlRecOn (motive := Attends) _ _ h fun _ hq child _ => hq.publish child

/-- What is sent of a record does not make it ready. -/
theorem Attends.deliver (h : p.Attends) (id : RecordId) : (p.deliver id).1.Attends := by
  unfold Publisher.deliver
  split
  · dsimp only
    split
    · exact h
    · exact h.modifyItems fun _ => rfl
  · rename_i fragment _
    dsimp only
    split
    · exact h
    · refine List.foldlRecOn (motive := fun state : Publisher ω × List IncrementalEntry => state.1.Attends) _ _ h
        fun state hstate set _ => ?_
      unfold sendFieldSet
      dsimp only
      split
      · split
        · exact hstate
        · exact hstate.modifyRecord fun _ _ hready => hready.elim
      · exact hstate
  · exact h

theorem Attends.deliverNext {state : Publisher ω × List IncrementalEntry × List CompletedEntry} (h : state.1.Attends)
    (id : RecordId) : (Publisher.deliverNext state id).1.Attends :=
  (h.publishChildren id).deliver id

/-- What is delivered is no longer pending, and nothing else was released. -/
theorem Attends.take (h : p.Attends) :
    Attends { p with released := [], pending := p.pending.filter (· ∉ p.released) } := by
  refine ⟨fun j hj => h.known j (List.mem_of_mem_filter hj), fun j hj => absurd hj List.not_mem_nil,
    fun j hj r hr hready => ?_⟩
  obtain ⟨hj, hnot⟩ := List.mem_filter.1 hj
  exact absurd (h.ready j hj r hr hready) (of_decide_eq_true hnot)

theorem Attends.nextResult? (h : p.Attends) : p.nextResult?.1.Attends := by
  have hdelivered : p.processReleased.1.Attends := by
    have hall := List.foldlRecOn (motive := fun state : Publisher ω × List IncrementalEntry × List CompletedEntry =>
      state.1.Attends) p.released Publisher.deliverNext (b := (_, [], [])) h.take fun _ hstate id _ => hstate.deliverNext id
    unfold processReleased
    dsimp only
    split <;> exact hall
  unfold Publisher.nextResult?
  split
  · exact h
  · exact hdelivered

/-- A result after which nothing follows is the one that leaves nothing pending. -/
theorem pending_of_last {r : SubsequentResult} (h : p.nextResult?.2 = some r) (hlast : r.hasNext = false) :
    p.nextResult?.1.pending = [] := by
  unfold Publisher.nextResult? at h ⊢
  split at h
  · exact absurd h (by simp)
  · rename_i hreleased
    rw [if_neg hreleased]
    unfold processReleased at h ⊢
    dsimp only at h ⊢
    split at h
    · exact absurd h (by simp)
    · rename_i hkept
      rw [if_neg hkept]
      cases h
      simpa using hlast

/-! ### Series of operations -/

/-- Errors are added to records that are no fragments. -/
def SparesFragments (p : Publisher ω) : Operation ω → Prop
  | .addError id _ => ¬ p.IsFragment id
  | _ => True

/-- No operation forgets a record that is ready. -/
theorem Attends.perform (h : p.Attends) {op : Operation ω} (hop : p.SparesFragments op) : (p.perform op).Attends := by
  have htake : ∀ q : Publisher ω, q.Attends → q.takeErrors.1.Attends := by
    refine fun q hq => hq.modifyRecord fun r _ hready => ?_
    cases r <;> exact hready
  have hshut : ∀ q : Publisher ω, q.Attends → q.shut.Attends := fun q hq => hq.of_eq rfl rfl rfl
  cases op with
  | addFragment path label parent => exact (h.push _).addChild parent _
  | addFieldSet path fragments => exact h.addFieldSet path fragments
  | addStream path label hook => exact h.of_eq rfl rfl rfl
  | addItems stream path parent => exact (h.push _).addChild parent _
  | completeFieldSet id data => exact h.completeFieldSet id data
  | failFieldSet id error => exact h.failFieldSet id error
  | completeItems id items => exact h.settleItems id _
  | failItems id error => exact h.failItems id error
  | setFinal id => exact h.modifyItems fun _ => rfl
  | setEnd id => exact h.modifyItems fun _ => rfl
  | retireItems id => exact h.settleItems id _
  | addError id error => exact h.addError hop error
  | filter nullPath erroring => exact h.filter nullPath erroring
  | spawn work =>
    show Attends (if p.closed then p else { p with inbox := p.inbox ++ [work] })
    split
    · exact h
    · exact h.of_eq rfl rfl rfl
  | takeInbox => exact h.of_eq rfl rfl rfl
  | close => exact hshut p h
  | respond =>
    have hasked := htake _ (h.publishChildren .initial)
    simp only [Publisher.perform]
    split
    · exact hasked
    · exact hshut _ hasked
  | respondError => exact hshut _ (htake p h)
  | nextResult => exact h.nextResult?

theorem Performs.attends {ops : List (Operation ω)} {emitted : List (RecordId × RecordId)}
    (h : Performs SparesFragments ops emitted p) : p.Attends := by
  induction h with
  | start => exact ⟨fun _ hid => absurd hid List.not_mem_nil, fun _ hid => hid, fun _ hid => absurd hid List.not_mem_nil⟩
  | step _ hop ih => exact ih.perform hop

/-- **No ready record is left waiting.**  After any operations among which no error is added to a fragment itself, what is
released is pending, all items that are pending and completed are released, and so are all fragments that are pending and
have an error or no unfinished set of fields.  If the next result says that it is the last one, nothing is pending or
released after it. -/
theorem Performs.leavesNoneWaiting {ops : List (Operation ω)} {emitted : List (RecordId × RecordId)}
    (h : Performs SparesFragments ops emitted p) :
    (∀ id ∈ p.released, id ∈ p.pending) ∧
    (∀ id ∈ p.pending, ∀ r, p.record? id = some (.items r) → r.completed = true → id ∈ p.released) ∧
    (∀ id ∈ p.pending, ∀ r, p.record? id = some (.fragment r) → r.errors ≠ [] ∨ r.unfinished = [] → id ∈ p.released) ∧
    ∀ r, p.nextResult?.2 = some r → r.hasNext = false →
      p.nextResult?.1.pending = [] ∧ p.nextResult?.1.released = [] := by
  have hattends := h.attends
  refine ⟨hattends.released, fun id hid r hr hcompleted => hattends.ready id hid _ hr hcompleted,
    fun id hid r hr hready => hattends.ready id hid _ hr hready.symm, fun r hr hlast => ?_⟩
  have hpending := pending_of_last hr hlast
  refine ⟨hpending, List.eq_nil_iff_forall_not_mem.2 fun id hid => ?_⟩
  have hmem := hattends.nextResult?.released id hid
  rw [hpending] at hmem
  exact List.not_mem_nil hmem

/-! ### A set that fails before its fragments are pending -/

/-- A set of two fragments fails when only one of them is pending, and the other one comes after that one. -/
def failedEarly : List (Operation Unit) :=
  [.addFragment (Path.root.key "a") none .initial, .addFragment (Path.root.key "b") none ⟨1⟩,
    .addFieldSet .root [⟨1⟩, ⟨2⟩], .addFieldSet .root [⟨2⟩], .respond, .failFieldSet ⟨3⟩ { message := "No data" }, .nextResult]

/-- The other one is pending and released then, although its other set is unfinished, and the next result is the last one. -/
theorem failedEarly_leavesNoneWaiting : ∃ emitted p r, Performs SparesFragments failedEarly emitted p ∧
    p.pending = [⟨2⟩] ∧ p.record? ⟨2⟩ = some (.fragment r) ∧ r.errors ≠ [] ∧ r.unfinished = [⟨4⟩] ∧ ⟨2⟩ ∈ p.released ∧
    (p.nextResult?.2.map SubsequentResult.hasNext) = some false ∧ p.nextResult?.1.pending = [] ∧
    p.nextResult?.1.released = [] := by
  have hrun : ∃ emitted p r, Performs SparesFragments failedEarly emitted p ∧ p.pending = [⟨2⟩] ∧
      p.record? ⟨2⟩ = some (.fragment r) ∧ r.errors ≠ [] ∧ r.unfinished = [⟨4⟩] ∧
      (p.nextResult?.2.map SubsequentResult.hasNext) = some false := by
    refine ⟨_, _, _, (((((((Performs.start.step ?_).step ?_).step ?_).step ?_).step ?_).step ?_).step ?_), ?_, rfl, ?_, ?_, ?_⟩
    all_goals first | exact trivial | decide +kernel
  obtain ⟨emitted, p, r, hperforms, hpending, hr, herrors, hunfinished, hlast⟩ := hrun
  obtain ⟨-, -, hfragments, hresult⟩ := hperforms.leavesNoneWaiting
  obtain ⟨result, hresult', hnext⟩ := Option.map_eq_some_iff.1 hlast
  obtain ⟨hnone, hnone'⟩ := hresult result hresult' hnext
  exact ⟨emitted, p, r, hperforms, hpending, hr, herrors, hunfinished,
    hfragments ⟨2⟩ (hpending ▸ List.mem_singleton_self _) r hr (.inl herrors), hlast, hnone, hnone'⟩

end Publisher

end GraphQL
