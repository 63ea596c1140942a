import GraphQL.Proofs.Execution.Isolation
import GraphQL.Proofs.Meaning.Accounts
import GraphQL.Proofs.Meaning.Conforms

/-!
# What results bring

While results are pulled, a ledger accounts for each stage (`Turns.rec_account`): a look sends only what records hold, and it
is calm after a look that gives nothing, since only items without an entry are handled then.  So every entry of every
result brings data that was asked for where it belongs, and its errors tell of that data (`Turns.sendsAsked`).
-/

namespace GraphQL

open Execution Stage

/-- An entry brings the value of fields that are asked for, at their path, or that of an item of a streamed list. -/
inductive IncrementalEntry.Brings (c : ExecutionContext) : IncrementalEntry → Asked → Json → Prop
  | fields {o : Selected} {data label errors} (ho : c.FieldsAt o) :
      Brings c (.defer ⟨data, o.path, label, errors⟩) (c.asked o) data
  | item {list : StreamedList} {position item v label errors} (hlist : list.IsAsked c)
      (hitem : list.source.outcomes[position]? = some (.ok item)) :
      Brings c (.stream ⟨[v], list.place.path.index position, label, errors⟩) (.child (list.child position item)) v

/-- The errors of an entry. -/
def IncrementalEntry.errors : IncrementalEntry → List Error
  | defer e => e.errors
  | stream e => e.errors

/-- An entry brings what the record stands for. -/
inductive Ledger.Sends (c : ExecutionContext) (l : Ledger) (p : Publisher Task) (id : RecordId) :
    IncrementalEntry → Asked → Json → Prop
  | fields {v label errors} (hid : p.IsFieldSet id) (hfields : c.FieldsAt (l.sets id))
      (hseat : p.seat id = (l.sets id).path) :
      Sends c l p id (.defer ⟨v, (l.sets id).path, label, errors⟩) (c.asked (l.sets id)) v
  | item {stream position item v label errors} (hat : p.IsAt l stream id position) (hlist : (l.lists stream).IsAsked c)
      (hitem : (l.lists stream).source.outcomes[position]? = some (.ok item)) :
      Sends c l p id (.stream ⟨[v], (l.lists stream).place.path.index position, label, errors⟩)
        (.child ((l.lists stream).child position item)) v

/-- What one publisher sends brings what its records still stand for in another one, and the errors tell of that. -/
def Ledger.SendsAsked (c : ExecutionContext) (l : Ledger) (q p : Publisher Task) : Prop :=
  ∀ sent ∈ p.sent, ∃ a v, l.Sends c q sent.1 (p.entryOf sent) a v ∧ a.Reports c (.ok v) (p.entryOf sent).errors

/-- The records that were sent. -/
def sentIds (looks : List (Publisher Task)) : List RecordId := looks.flatMap fun p => p.sent.map Prod.fst

variable {c : ExecutionContext} {l l' : Ledger} {gone hand hand' : List RecordId} {s s₀ s' : ExecStage}
  {looks : List (Publisher Task)} {free : Bool}

namespace Ledger

variable {p q u : Publisher Task} {id : RecordId} {entry : IncrementalEntry} {a : Asked} {v : Json}

theorem Sends.brings (h : l.Sends c p id entry a v) : entry.Brings c a v := by
  cases h with
  | fields _ hfields => exact .fields hfields
  | item _ hlist hitem => exact .item hlist hitem

theorem Sends.asks (h : l.Sends c p id entry a v) : l.Asks c p id a := by
  cases h with
  | fields hid => exact .fields hid
  | item hat _ hitem => exact .item hat hitem

/-- The records stand for the same while records are added. -/
theorem Sends.keeps (h : l.Sends c p id entry a v) (hl : p.Linked) (hk : l.Keeps p l' q) : l'.Sends c q id entry a v := by
  cases h with
  | fields hid hfields hseat =>
    have hlt := hid.isHome.lt_size
    rw [← hk.sets id hlt] at hfields hseat ⊢
    exact .fields (hk.grows.isFieldSet hid) hfields ((hk.grows.seat hlt).trans hseat)
  | item hat hlist hitem =>
    rw [← hk.lists_of_isAt hl hat] at hlist hitem ⊢
    exact .item (hk.isAt hl hat) hlist hitem

theorem SendsAsked.keeps (h : l.SendsAsked c p u) (hl : p.Linked) (hk : l.Keeps p l' q) : l'.SendsAsked c q u := by
  intro sent hsent
  obtain ⟨a, v, hsends, hreports⟩ := h sent hsent
  exact ⟨a, v, hsends.keeps hl hk, hreports⟩

end Ledger

theorem sentIds_concat (looks : List (Publisher Task)) (p : Publisher Task) :
    sentIds (looks ++ [p]) = sentIds looks ++ p.sent.map Prod.fst := by
  simp [sentIds]

/-! ### Looks -/

/-- What is taken out of a record once it was sent. -/
theorem Record.Grows.emptied {n : Nat} (r : Record) : Record.Grows n r r.emptied := by
  cases r with
  | fieldSet r => exact .fieldSet rfl rfl fun _ => rfl
  | items r => exact .items rfl rfl (.refl _) (fun h => h) (fun h => h) fun h => h
  | _ => exact .refl _

namespace Publisher

variable {p : Publisher Task}

theorem Sound.grows_nextResult? (h : p.Sound) (honce : p.ListsOnce) (n : Nat) : Grows n p p.nextResult?.1 := by
  have halike := h.nextResult?.alike
  refine ⟨fun id r hr => ?_, fun id st hst => ⟨st, (halike.stream? id).trans hst, rfl, rfl, List.Subset.refl _⟩,
    halike.closed⟩
  rw [h.record?_nextResult? honce, hr]
  split
  · exact ⟨_, rfl, .emptied r⟩
  · exact ⟨r, rfl, .refl r⟩

/-- What is handled in a look that gives nothing are items. -/
theorem Sound.isItems_of_silent (h : p.Sound) (hnone : p.nextResult?.2 = none) {id : RecordId} (hid : id ∈ p.released) :
    ∃ r, p.record? id = some (.items r) ∧ r.completed = true := by
  have hentries : p.completedEntries id = [] :=
    (List.flatMap_eq_nil_iff.1 (h.nextResult?.silent hnone).1) id hid
  obtain ⟨r, hr, hdeliverable⟩ := h.prompt.deliverable id (h.prompt.released id hid)
  cases r with
  | items r => exact ⟨r, hr, h.prompt.completed id r hid hr⟩
  | fragment r =>
    unfold completedEntries at hentries
    rw [hr] at hentries
    exact absurd hentries (by simp)
  | _ => exact hdeliverable.elim

/-- After a look that gives nothing it is calm. -/
theorem Sound.calm_of_silent (h : p.Sound) (hordered : p.Ordered) (hnone : p.nextResult?.2 = none) :
    p.nextResult?.1.Calm := by
  have hhandled := h.nextResult?
  intro f hf _ _
  obtain ⟨parent, hparent, hfollows⟩ := hhandled.released f hf
  obtain ⟨r, hr, hcompleted⟩ := h.isItems_of_silent hnone hparent
  obtain ⟨hkid, -⟩ := follows_iff.1 hfollows
  refine ⟨⟨parent, by rw [hhandled.alike.kids]; exact hkid⟩, fun other hother => ?_⟩
  rw [hhandled.alike.kids] at hother
  -- items are the only parent of what comes after them
  have heq : other = parent := by
    by_contra hne
    obtain ⟨rf, hrf, hmem⟩ := mem_kids.1 hkid
    obtain ⟨-, rc, hrc, -⟩ := h.linked.children parent rf hrf f hmem
    obtain ⟨set, -, rs, hrs, hbelongs⟩ := hordered.shared other parent f (lt_size_of_record? hrc) hother hkid hne
    obtain ⟨-, fr, hfr⟩ := h.linked.fragments set rs hrs parent hbelongs
    rw [hr] at hfr
    exact absurd hfr (by simp)
  subst heq
  obtain ⟨r', hr', -, -, -, hc, -⟩ := hhandled.alike.symm.items hr
  exact ⟨r', hr', hc.symm.trans hcompleted⟩

/-- What was noted at a record tells of what it holds. -/
theorem Gives.reports {id : RecordId} {a : Asked} {v : Json} (h : p.Gives c id a v)
    (hnoted : ∀ e ∈ p.noted id, l.Allows c p id e) (hasks : ∀ asked, l.Asks c p id asked → asked = a) :
    a.Reports c (.ok v) (p.noted id) := by
  refine ⟨h _ fun _ he => he, fun e he => ?_⟩
  obtain ⟨asked, hasked, he⟩ := hnoted e he
  exact hasks asked hasked ▸ he

/-- What a look sends was asked for. -/
theorem Filled.sendsAsked (h : p.Filled c l gone) (hs : p.Sound) (hl : p.Listed)
    (hnoted : ∀ id, ∀ e ∈ p.noted id, l.Allows c p id e)
    (hfulfilled : ∀ f set, f ∈ p.released → (p.duty f).errors = [] → p.BelongsTo set f → (p.duty set).fulfilled = true)
    (hlists : ∀ stream st, p.stream? stream = some st → (l.lists stream).IsAsked c) : l.SendsAsked c p p := by
  rintro ⟨id, label⟩ hsent
  rcases hl.mem_sent hsent with ⟨-, -, r, hr, -, hitems⟩ | ⟨hunsent, f, hf, r, hr, herrors, -, hset⟩
  · obtain ⟨position, hposition, hholds⟩ := h.batches id r.batch (content_of_record? hr)
    cases hholds with
    | nothing hnil => exact absurd hnil hitems
    | @item v hitem _ _ _ hv =>
      obtain ⟨st, hst⟩ := hs.linked.streams id r hr
      have hitem' : r.items = [v] := hitem
      have hposition' : r.path = (l.lists r.stream).place.path.index position := hposition
      have hentry : p.entryOf (id, label) =
          .stream ⟨[v], (l.lists r.stream).place.path.index position, label, p.noted id⟩ := by
        unfold entryOf
        rw [noted_of_record? hr, hr, ← hitem', ← hposition']
        rfl
      obtain ⟨item, hsource, hgives⟩ := hv
      rw [hentry]
      exact ⟨_, v, .item ⟨r, hr, rfl, hposition'⟩ (hlists r.stream st hst) hsource,
        hgives.reports (hnoted id) fun asked hasks => hasks.of_isAt ⟨r, hr, rfl, hposition'⟩ hsource⟩
  · obtain ⟨u, hu, hmem⟩ := hset
    have hdone := hfulfilled f id hf (by rw [duty_of_record? hr]; exact herrors) ⟨u, hu, hmem⟩
    rw [duty_of_record? hu] at hdone
    unfold isUnsent at hunsent
    rw [hu] at hunsent
    obtain ⟨v, hv⟩ : ∃ v, u.data = some v := by
      rw [← Option.isSome_iff_exists]
      have hsent : u.sent = false := by simpa using hunsent
      simpa [Record.duty, hsent] using hdone
    obtain ⟨hfields, hpath, hgives⟩ := h.sets id u.path v (content_eq_fields.2 ⟨u, hu, rfl, hv⟩)
    have hentry : p.entryOf (id, label) = .defer ⟨v, (l.sets id).path, label, p.noted id⟩ := by
      unfold entryOf
      rw [noted_of_record? hu, hu, hpath]
      simp [hv, Record.noted]
    rw [hentry]
    exact ⟨_, v, .fields ⟨u, hu⟩ hfields ((seat_fieldSet hu).trans hpath.symm),
      hgives.reports (hnoted id) fun asked hasks => hasks.of_isFieldSet ⟨u, hu⟩⟩

end Publisher

/-! ### Turns -/

/-- What a task completes is not sent. -/
theorem Ledger.Account.not_mem_sent (h : l.Account c gone [] s) (hl : s.publisher.Listed) {task : Task}
    (htask : task ∈ s.tasks) : task.record ∉ s.publisher.sent.map Prod.fst := by
  intro hmem
  obtain ⟨⟨id, label⟩, hsent, hid⟩ := List.mem_map.1 hmem
  obtain rfl : id = task.record := hid
  rcases hl.mem_sent hsent with ⟨hreleased, -, r, hr, -⟩ | ⟨-, f, hf, r, hr, herrors, -, hset⟩
  · have hcompleted := h.clear.sound.publisher.prompt.completed _ r hreleased hr
    rcases (h.clear.sound.accepts task htask).isOpen with ⟨r', hr'⟩ | ⟨r', hr', hopen⟩
    · exact absurd (hr.symm.trans hr') (by simp)
    · obtain rfl : r = r' := by simpa using hr.symm.trans hr'
      exact absurd (hcompleted.symm.trans hopen) (by simp)
  · -- the set would still be owed by a fragment that waits for nothing
    have hunfinished := h.owing.owes.running task.record
      (List.mem_append_left _ (mem_awaited.2 ⟨task, htask, rfl⟩)) f (Publisher.mem_fragments_duty.2 hset)
    rcases h.owing.whole f hf with hnil | hne
    · exact absurd (hnil ▸ hunfinished) (by simp)
    · exact hne (by rw [Publisher.duty_of_record? hr]; exact herrors)

/-- A look keeps the account. -/
theorem Ledger.Account.look (h : l.Account c gone [] s) (hl : s.publisher.Listed) :
    l.Carries s l s.look ∧ l.Account c (gone ++ s.publisher.sent.map Prod.fst) [] s.look := by
  have hsound := h.clear.sound.publisher
  have hhandled := hsound.nextResult?
  have hgrows := hsound.grows_nextResult? hl.listsOnce s.publisher.records.size
  have hnoted := hsound.noted_nextResult? hl.listsOnce
  obtain ⟨hcarries, hclear⟩ := h.clear.alike hhandled.sound hhandled.alike hgrows (fun id => (hnoted id).2)
    fun task htask => by
      rw [(hnoted task.record).1 (h.not_mem_sent hl htask)]
      exact List.Subset.refl _
  have howes : s.publisher.Owes (s.look.awaited ++ []) := by
    rw [show s.look.awaited = s.awaited from awaited_withPublisher hhandled.alike.inbox]
    exact h.owing.owes
  obtain ⟨howes', hwhole'⟩ := howes.look h.owing.whole
  have hadds : s.publisher.AddsNothing s.look.publisher := fun j hj => by
    show s.publisher.nextResult?.1.content j = _
    rw [hsound.content_nextResult? hl.listsOnce, Publisher.content_of_size_le hj]
    exact ite_self _
  refine ⟨hcarries, hclear, ⟨howes', hwhole'⟩, h.filled.look hsound hl,
    h.places.of_addsNothing hsound.linked hcarries.toKeeps hadds, fun id hid => ?_⟩
  refine Nat.lt_of_lt_of_le ?_ hgrows.size_le
  rcases List.mem_append.1 hid with hid | hid
  · exact h.sent id hid
  · exact hl.lt_size_of_mem_sent hid

/-- After the answer, records are in order and listed. -/
theorem Course.tidy {initial : InitialResult} (h : Course c s₀ looks s) (h₀ : c.Answered initial s₀) :
    s.publisher.Ordered ∧ s.publisher.Listed := by
  obtain ⟨is, his, -⟩ := h₀.history
  obtain ⟨is', his', -⟩ := h.history h₀.sound.1 his
  exact ⟨his'.ordered, his'.listed⟩

/-- A ledger accounts for the stage after any turns, and it is calm when work may run.  What else is known at the start
and is kept by work and by looks is known then, too. -/
theorem Turns.rec_account {I : Ledger → List (Publisher Task) → ExecStage → Prop} {initial : InitialResult}
    (h : Turns c s₀ free looks s) (h₀ : c.Answered initial s₀) (hstart : ∀ l : Ledger, l.Account c [] [] s₀ → I l [] s₀)
    (hlater : ∀ (l l' : Ledger) looks s s', l.Account c (sentIds looks) [] s → l.Later s l' s' → I l looks s → I l' looks s')
    (hlook : ∀ (l : Ledger) looks s, l.Account c (sentIds looks) [] s → s.publisher.Ordered → s.publisher.Listed →
      I l looks s → I l (looks ++ [s.publisher]) s.look) :
    ∃ l : Ledger, l.Account c (sentIds looks) [] s ∧ (free = true → s.publisher.Calm) ∧ I l looks s := by
  induction h with
  | start =>
    obtain ⟨l, ha⟩ := h₀.account
    exact ⟨l, ha, fun hfalse => absurd hfalse (by simp), hstart l ha⟩
  | inbox _ ih =>
    obtain ⟨l, ha, hcalm, hi⟩ := ih
    exact ⟨l, ha.takeInbox.1, fun hfree => ha.takeInbox.2 (hcalm hfree), hlater _ _ _ _ _ ha ha.clear.takeInbox.1 hi⟩
  | advance _ time ih =>
    obtain ⟨l, ha, hcalm, hi⟩ := ih
    exact ⟨l, (ha.advanceTo time).1, fun hfree => (ha.advanceTo time).2 (hcalm hfree),
      hlater _ _ _ _ _ ha (ha.clear.advanceTo time).1 hi⟩
  | told h _ ih =>
    obtain ⟨l, ha, -, hi⟩ := ih
    obtain ⟨hordered, hlisted⟩ := h.course.tidy h₀
    rw [sentIds_concat]
    exact ⟨l, (ha.look hlisted).2, fun hfalse => absurd hfalse (by simp), hlook _ _ _ ha hordered hlisted hi⟩
  | silent h hnone ih =>
    obtain ⟨l, ha, -, hi⟩ := ih
    obtain ⟨hordered, hlisted⟩ := h.course.tidy h₀
    rw [sentIds_concat]
    exact ⟨l, (ha.look hlisted).2, fun _ => ha.clear.sound.publisher.calm_of_silent hordered hnone,
      hlook _ _ _ ha hordered hlisted hi⟩
  | work _ hready hrun ih =>
    obtain ⟨l, ha, hcalm, hi⟩ := ih
    obtain ⟨l', hl, ha', hcalm'⟩ := ha.runOne (hcalm rfl) hready hrun
    exact ⟨l', ha', fun hfree => hcalm' (by simpa using hfree), hlater _ _ _ _ _ ha hl hi⟩
  | pause _ ih =>
    obtain ⟨l, ha, -, hi⟩ := ih
    exact ⟨l, ha, fun hfalse => absurd hfalse (by simp), hi⟩

/-- A ledger accounts for the stage after any turns, and every look sent what the records stand for. -/
theorem Turns.sendsAsked {initial : InitialResult} (h : Turns c s₀ free looks s) (h₀ : c.Answered initial s₀) :
    ∃ l : Ledger, l.Account c (sentIds looks) [] s ∧ ∀ p ∈ looks, l.SendsAsked c s.publisher p := by
  have hlook (l : Ledger) (looks : List (Publisher Task)) (s : ExecStage) (ha : l.Account c (sentIds looks) [] s)
      (_ : s.publisher.Ordered) (hlisted : s.publisher.Listed) (hi : ∀ p ∈ looks, l.SendsAsked c s.publisher p) :
      ∀ p ∈ looks ++ [s.publisher], l.SendsAsked c s.look.publisher p := by
    have hlinked := ha.clear.sound.publisher.linked
    have hkeeps := (ha.look hlisted).1.toKeeps
    intro p hp
    rcases List.mem_append.1 hp with hp | hp
    · exact (hi p hp).keeps hlinked hkeeps
    · obtain rfl := List.mem_singleton.1 hp
      have hsends := ha.filled.sendsAsked ha.clear.sound.publisher hlisted ha.clear.noted
        (fun f set hf herrors hset => ha.owing.owes.fulfilled ha.owing.whole hf herrors hset)
        (fun stream st hst => (ha.clear.lists stream st hst).1)
      exact hsends.keeps hlinked hkeeps
  obtain ⟨l, ha, -, hsends⟩ := h.rec_account (I := fun l looks s => ∀ p ∈ looks, l.SendsAsked c s.publisher p) h₀
    (fun _ _ p hp => absurd hp (by simp))
    (fun _ _ _ _ _ ha hlater hi p hp => (hi p hp).keeps ha.clear.sound.publisher.linked hlater.toKeeps) hlook
  exact ⟨l, ha, hsends⟩

end GraphQL
