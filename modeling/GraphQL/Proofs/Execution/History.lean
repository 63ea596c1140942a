import GraphQL.Proofs.Delivery.Losses
import GraphQL.Proofs.Execution.Handled

/-!
# The history of a response

Of all that happens while a response is produced, a few incidents settle what is delivered: a value becomes null while a
record is completed, a set of fields fails, the answer is given, and the publisher is looked at for a result.  A
`History` keeps them, each with the publisher just before it; every execution has one (`Pulls.history`).  The standing of
each record can be read off the incidents: it is filtered if it was lost with a value that became null
(`History.filtered_iff`), it has failed if one of its sets of fields did (`History.failed_iff`), a set of fields was sent
if a fragment of it was delivered without errors (`History.sent_iff`), and a record was delivered or is pending if it
came after something that was delivered and was not lost by then (`History.reached_iff`).
-/

namespace GraphQL

open Execution Stage

/-- Something that bears on what is delivered, with the publisher just before it. -/
inductive Incident where
  /-- A value became null while a record was completed. -/
  | nulled (p : Publisher Task) (path : Path) (record : RecordId)
  /-- A set of fields failed. -/
  | failed (p : Publisher Task) (set : RecordId)
  /-- The answer was given, with the initial data. -/
  | answered (p : Publisher Task)
  /-- The publisher was looked at for a result. -/
  | looked (p : Publisher Task)

namespace Incident

/-- The publisher just before. -/
def publisher : Incident → Publisher Task
  | nulled p _ _ => p
  | failed p _ => p
  | answered p => p
  | looked p => p

/-- The record is lost with a value that became null. -/
def Loses (k : RecordId) : Incident → Prop
  | nulled p path record => p.Loses path record k
  | _ => False

/-- The record is a fragment of a set of fields that failed. -/
def Fails (k : RecordId) : Incident → Prop
  | failed p set => p.BelongsTo set k
  | _ => False

/-- The records that are delivered. -/
def delivered : Incident → List RecordId
  | answered _ => [.initial]
  | looked p => p.released
  | _ => []

/-- The record is a set of fields that goes with a fragment which is delivered without errors. -/
def Sends (k : RecordId) : Incident → Prop
  | looked p => ∃ f ∈ p.released, p.BelongsTo k f ∧ (p.standing f).errors = []
  | _ => False

/-- The publishers that were looked at. -/
def look? : Incident → Option (Publisher Task)
  | looked p => some p
  | _ => none

end Incident

/-- The publishers that were looked at, in their order. -/
def looksOf (incidents : List Incident) : List (Publisher Task) := incidents.filterMap Incident.look?

theorem looksOf_append (is is' : List Incident) : looksOf (is ++ is') = looksOf is ++ looksOf is' :=
  List.filterMap_append

/-- What has happened up to a stage, with the records in hand. -/
inductive History (c : ExecutionContext) : List Incident → List RecordId → ExecStage → Prop
  | start : History c [] [] c.stage
  | move {is hand s hand' s'} (h : History c is hand s) (m : Move hand s hand' s')
      (hsteady : ∀ id, s'.publisher.standing id = s.publisher.standing id) : History c is hand' s'
  | null {is hand s} (h : History c is hand s) (path : Path) (id : RecordId) :
      History c (is ++ [.nulled s.publisher path id]) hand (s.publishAndClose fun p => p.filter path id)
  | failItems {is hand s listPath id} (h : History c is (id :: hand) s) (e : Error)
      (hid : s.publisher.AwaitsItem listPath id) :
      History c (is ++ [.nulled s.publisher listPath id]) hand
        ((s.publishAndClose fun p => p.filter listPath id).publishAndClose fun p => p.failItems id e)
  | failSet {is hand s id} (h : History c is (id :: hand) s) (e : Error) (hid : s.publisher.IsFieldSet id) :
      History c (is ++ [.failed s.publisher id]) hand (s.withPublisher (s.publisher.failFieldSet id e))
  | answer {is s} (h : History c is [] s) :
      History c (is ++ [.answered s.publisher]) []
        (s.withPublisher (s.publisher.publishChildren .initial).takeErrors.1)
  | look {is s} (h : History c is [] s) : History c (is ++ [.looked s.publisher]) [] s.look

variable {c : ExecutionContext} {is : List Incident} {hand hand' : List RecordId} {s s' : ExecStage} {k : RecordId}

/-! ### What changes the standing of records -/

namespace Publisher

variable {α : Type} {p q : Publisher Task} {g : Record → α} {a : α}

theorem Same.facet (h : p.Same q) (id : RecordId) : q.facet g a id = p.facet g a id :=
  facet_of_record? (h.record? id)

theorem Same.standing (h : p.Same q) (id : RecordId) : q.standing id = p.standing id := h.facet id

/-- All records of a publisher are there in a later one, with what they have gained. -/
def Persists (p q : Publisher Task) : Prop :=
  ∀ id r, p.record? id = some r → ∃ r', q.record? id = some r' ∧ Record.Grows 0 r.outline r'.outline

namespace Persists

variable {u : Publisher Task}

theorem trans (h : p.Persists q) (h' : q.Persists u) : p.Persists u := by
  intro id r hr
  obtain ⟨r', hr', hg⟩ := h id r hr
  obtain ⟨r'', hr'', hg'⟩ := h' id r' hr'
  exact ⟨r'', hr'', hg.trans hg'⟩

theorem of_alike (h : p.Alike q) : p.Persists q := by
  intro id r hr
  obtain ⟨r', hr', hout⟩ := h.record? hr
  exact ⟨r', hr', by rw [hout]; exact Record.Grows.refl _⟩

theorem of_grows (h : Grows 0 p q) : p.Persists q := by
  intro id r hr
  obtain ⟨r', hr', hg⟩ := h.records id r hr
  refine ⟨r', hr', ?_⟩
  cases hg with
  | initial hc => exact .initial hc
  | fragment hp hl hc hs hu he hf => exact .fragment hp hl hc hs hu he hf
  | fieldSet hp hf => exact .fieldSet hp hf fun h => h
  | items hs hp hc hd hf hfilter => exact .items hs hp hc hd hf hfilter

theorem kids (h : p.Persists q) (id : RecordId) : p.kids id ⊆ q.kids id := by
  intro child hchild
  obtain ⟨r, hr, hmem⟩ := mem_kids.1 hchild
  obtain ⟨r', hr', hg⟩ := h id r hr
  refine mem_kids.2 ⟨r', hr', ?_⟩
  rw [← Record.children_outline] at hmem ⊢
  exact hg.children.subset hmem

theorem belongsTo (h : p.Persists q) {set id : RecordId} (hset : p.BelongsTo set id) : q.BelongsTo set id := by
  obtain ⟨r, hr, hmem⟩ := hset
  obtain ⟨r', hr', hg⟩ := h set _ hr
  cases r' with
  | fieldSet r' =>
    cases hg with
    | fieldSet _ hfragments => exact ⟨r', hr', hfragments ▸ hmem⟩
  | _ => exact absurd hg (by rintro ⟨⟩)

end Persists

theorem facet_publishChildren (p : Publisher Task) (id j : RecordId) :
    (p.publishChildren id).facet g a j = p.facet g a j := by
  refine facet_of_record? ?_
  unfold record?
  rw [(records_publishChildren p id).1]

/-- The answer takes nothing but errors of the initial record. -/
theorem facet_answer (hinitial : ∀ r r' : InitialRecord, g (.initial r) = g (.initial r')) (p : Publisher Task)
    (j : RecordId) : (p.publishChildren .initial).takeErrors.1.facet g a j = p.facet g a j := by
  refine (facet_modifyRecord fun r => ?_).trans (facet_publishChildren p .initial j)
  cases r
  case initial r => exact hinitial _ _
  all_goals rfl

end Publisher

namespace Stage

theorem standing_publishAndClose (s : ExecStage) (f : Publisher Task → Publisher Task × List StreamId) (id : RecordId) :
    (s.publishAndClose f).publisher.standing id = (f s.publisher).1.standing id :=
  (same_publishAndClose s f).standing id

end Stage

/-- A side of records that does not change while they are completed is changed by three kinds of moves at most: by
those that filter, by the failure of a set of fields, and by a new set of fields. -/
theorem Move.facet {α : Type} {g : Record → α} {a : α} (m : Move hand s hand' s') (hg : Publisher.Static g)
    (hfragment : ∀ path label, g (.fragment { path := path, label := label }) = a)
    (hitems : ∀ stream path, g (.items { stream := stream, path := path }) = a) :
    (∀ id, s'.publisher.facet g a id = s.publisher.facet g a id) ∨
      (∃ path id, hand' = hand ∧ s' = s.publishAndClose fun p => p.filter path id) ∨
      (∃ listPath id e, hand = id :: hand' ∧ s.publisher.AwaitsItem listPath id ∧
        s' = (s.publishAndClose fun p => p.filter listPath id).publishAndClose fun p => p.failItems id e) ∨
      (∃ id e, hand = id :: hand' ∧ s.publisher.IsFieldSet id ∧ s' = s.withPublisher (s.publisher.failFieldSet id e)) ∨
      ∃ path fragments, (∀ f ∈ fragments, s.publisher.IsFragment f) ∧
        s' = s.withPublisher (s.publisher.addFieldSet path fragments).1 := by
  cases m with
  | reorder _ hsame => exact .inl hsame.facet
  | take hsame => exact .inl hsame.facet
  | rest _ hsame => exact .inl hsame.facet
  | fragment path label =>
    exact .inl fun id => (hg.facet_addChild _ _ _).trans (Publisher.facet_push (hfragment path label))
  | fieldSet path hfragments => exact .inr (.inr (.inr (.inr ⟨path, _, hfragments, rfl⟩)))
  | stream => exact .inl fun id => Publisher.facet_of_record? rfl
  | items => exact .inl fun id => (hg.facet_addChild _ _ _).trans (Publisher.facet_push (hitems _ _))
  | error e hid =>
    obtain ⟨r, hr, hnot⟩ := hid
    refine .inl fun id => hg.facet_addError _ _ e fun r' hr' => ?_
    rw [hr] at hr'
    cases hr'
    exact hnot
  | filter path id => exact .inr (.inl ⟨path, id, rfl, rfl⟩)
  | final => exact .inl fun id => hg.facet_modifyItems _ _ fun _ => rfl
  | completeSet data => exact .inl fun id => hg.facet_completeFieldSet _ _ data
  | failSet e hid => exact .inr (.inr (.inr (.inl ⟨_, e, rfl, hid, rfl⟩)))
  | completeItems items => exact .inl fun id => hg.facet_completeItems _ _ items
  | failItems e hid => exact .inr (.inr (.inl ⟨_, _, e, rfl, hid, rfl⟩))
  | endItems =>
    exact .inl fun id => (hg.facet_completeItems _ _ []).trans (hg.facet_modifyItems _ _ fun _ => rfl)
  | retireItems => exact .inl fun id => hg.facet_retireItems _ _

/-- A new set of fields changes the standing of no record. -/
theorem standing_addFieldSet (p : Publisher Task) (path : Path) (fragments : List RecordId) (id : RecordId) :
    (p.addFieldSet path fragments).1.standing id = p.standing id := by
  refine (Publisher.facet_foldl (fun q f => Publisher.facet_modifyRecord fun r => ?_) fragments).trans
    (Publisher.facet_push rfl)
  cases r <;> rfl

namespace History

/-! ### Histories of executions -/

/-- A move continues a history. -/
theorem step (h : History c is hand s) (m : Move hand s hand' s') :
    ∃ is', History c (is ++ is') hand' s' ∧ looksOf is' = [] := by
  have hsteady := m.facet (a := {}) Publisher.Static.standing (fun _ _ => rfl) fun _ _ => rfl
  rcases hsteady with hsteady | ⟨path, id, rfl, rfl⟩ | ⟨listPath, id, e, rfl, hid, rfl⟩ | ⟨id, e, rfl, hid, rfl⟩ |
    ⟨path, fragments, -, rfl⟩
  · exact ⟨[], by rw [List.append_nil]; exact h.move m hsteady, rfl⟩
  · exact ⟨_, h.null path id, rfl⟩
  · exact ⟨_, h.failItems e hid, rfl⟩
  · exact ⟨_, h.failSet e hid, rfl⟩
  · refine ⟨[], ?_, rfl⟩
    rw [List.append_nil]
    exact h.move m fun id => standing_addFieldSet _ path fragments id

/-- Moves continue a history. -/
theorem steps (m : Moves hand s hand' s') (h : History c is hand s) :
    ∃ is', History c (is ++ is') hand' s' ∧ looksOf is' = [] := by
  induction m with
  | refl => exact ⟨[], by rw [List.append_nil]; exact h, rfl⟩
  | step _ m ih =>
    obtain ⟨is₁, h₁, hnone₁⟩ := ih
    obtain ⟨is₂, h₂, hnone₂⟩ := h₁.step m
    refine ⟨is₁ ++ is₂, by rw [← List.append_assoc]; exact h₂, ?_⟩
    rw [looksOf_append, hnone₁, hnone₂]
    rfl

end History

/-- The moves before the answer, and the answer itself. -/
theorem ExecutionContext.Answered.history {initial : InitialResult} (h : c.Answered initial s) :
    ∃ is, History c is [] s ∧ looksOf is = [] := by
  obtain ⟨s₁, hmoves, rfl, -⟩ := h.answers
  obtain ⟨is, his, hlooks⟩ := History.start.steps hmoves
  refine ⟨_, his.answer, ?_⟩
  rw [looksOf_append, looksOf_append, hlooks]
  rfl

/-- What happens on a course continues a history, with the same looks. -/
theorem Course.history {s₀ : ExecStage} {looks : List (Publisher Task)} (h : Course c s₀ looks s) (h₀ : Sound [] s₀)
    (his : History c is [] s₀) : ∃ is', History c (is ++ is') [] s ∧ looksOf is' = looks := by
  refine (h.rec_moves (I := fun looks s => ∃ is', History c (is ++ is') [] s ∧ looksOf is' = looks) h₀ ?_ ?_ ?_).2
  · exact ⟨[], by rw [List.append_nil]; exact his, rfl⟩
  · rintro looks s s' - hmoves ⟨is₁, h₁, hlooks⟩
    obtain ⟨is₂, h₂, hnone⟩ := h₁.steps hmoves
    refine ⟨is₁ ++ is₂, by rw [← List.append_assoc]; exact h₂, ?_⟩
    rw [looksOf_append, hlooks, hnone, List.append_nil]
  · rintro looks s - ⟨is₁, h₁, hlooks⟩
    refine ⟨is₁ ++ [.looked s.publisher], by rw [← List.append_assoc]; exact h₁.look, ?_⟩
    rw [looksOf_append, hlooks]
    rfl

/-- Every execution has a history, whose looks give the results. -/
theorem Pulls.history {initial : InitialResult} {s₀ : ExecStage} {results : List SubsequentResult}
    (h₀ : c.Answered initial s₀) (h : Pulls c s₀ results s') :
    ∃ is s, History c is [] s ∧ resultsOf (looksOf is) = results ∧ Pulls.Stands s results s' := by
  obtain ⟨hs₀, hdone, -, hpending⟩ := h₀.sound
  obtain ⟨looks, s, hcourse, hresults, hstands⟩ := h.course hs₀ hdone hpending
  obtain ⟨is₀, his₀, hnone⟩ := h₀.history
  obtain ⟨is, his, hlooks⟩ := hcourse.history hs₀ his₀
  refine ⟨is₀ ++ is, s, his, ?_, hstands⟩
  rw [looksOf_append, hnone, hlooks, List.nil_append]
  exact hresults

namespace History

/-! ### What holds at any time -/

theorem sound (h : History c is hand s) : Sound hand s := by
  induction h with
  | start => exact c.sound_stage.1
  | move _ m _ ih => exact m.sound ih
  | null _ path id ih => exact ih.filter path id
  | failItems _ e hid ih => exact Move.sound (.failItems e hid) ih
  | failSet _ e hid ih => exact ih.failSet e hid
  | answer _ ih =>
    have hchildren := ih.publisher.publishChildren .initial
    have herrors := hchildren.1.takeErrors
    exact ih.alike herrors.1 (hchildren.2.1.trans herrors.2)
  | look _ ih => exact ih.look

/-- The records of each stream come one after the other, and only fragments that share a set of fields share children. -/
theorem ordered (h : History c is hand s) : s.publisher.Ordered := by
  induction h with
  | start => exact c.ordered_stage
  | move h m _ ih => exact m.ordered h.sound ih
  | null h path id ih => exact (Move.filter path id).ordered h.sound ih
  | failItems h e hid ih => exact (Move.failItems e hid).ordered h.sound ih
  | failSet h e hid ih => exact (Move.failSet e hid).ordered h.sound ih
  | answer h ih =>
    have hchildren := h.sound.publisher.publishChildren .initial
    exact ih.of_alike (hchildren.2.1.trans hchildren.1.takeErrors.2)
  | look h ih => exact ih.of_alike h.sound.publisher.nextResult?.alike

/-- Each incident happens at a stage of the history, whose records are there later on. -/
theorem split {before after : List Incident} {i : Incident} (h : History c (before ++ i :: after) hand s) :
    (∃ hand' s', History c before hand' s' ∧ s'.publisher = i.publisher ∧ s'.publisher.Persists s.publisher) ∧
      ∃ hand' s', History c (before ++ [i]) hand' s' := by
  generalize heq : before ++ i :: after = is at h
  have hlast : ∀ {is : List Incident} {j : Incident} {hand₁ s₁ hand₂ s₂}, History c is hand₁ s₁ →
      s₁.publisher = j.publisher → History c (is ++ [j]) hand₂ s₂ → s₁.publisher.Persists s₂.publisher →
      (∀ {after}, before ++ i :: after = is → (∃ hand' s', History c before hand' s' ∧
        s'.publisher = i.publisher ∧ s'.publisher.Persists s₁.publisher) ∧
        ∃ hand' s', History c (before ++ [i]) hand' s') →
      ∀ {after}, before ++ i :: after = is ++ [j] →
        (∃ hand' s', History c before hand' s' ∧ s'.publisher = i.publisher ∧ s'.publisher.Persists s₂.publisher) ∧
          ∃ hand' s', History c (before ++ [i]) hand' s' := by
    intro is j hand₁ s₁ hand₂ s₂ h₁ hj h₂ hpersists ih after heq
    rcases List.eq_nil_or_concat after with rfl | ⟨after', u, rfl⟩
    · obtain ⟨rfl, hij⟩ := List.append_inj' heq rfl
      obtain rfl : i = j := List.singleton_inj.1 hij
      exact ⟨⟨_, _, h₁, hj, hpersists⟩, _, _, h₂⟩
    · have heq' : (before ++ i :: after') ++ [u] = is ++ [j] := by simpa using heq
      obtain ⟨⟨hand', s', h', hi, hpersists'⟩, hafter⟩ := ih (List.append_inj' heq' rfl).1
      exact ⟨⟨hand', s', h', hi, hpersists'.trans hpersists⟩, hafter⟩
  have hmove : ∀ {hand' hand'' s' s''}, Move hand' s' hand'' s'' → s'.publisher.Persists s''.publisher :=
    fun m => .of_grows m.grows
  induction h generalizing after with
  | start => exact absurd heq (by simp)
  | move _ m _ ih =>
    obtain ⟨⟨hand', s', h', hi, hpersists⟩, hafter⟩ := ih heq
    exact ⟨⟨hand', s', h', hi, hpersists.trans (hmove m)⟩, hafter⟩
  | null h path id ih => exact hlast h rfl (h.null path id) (hmove (@Move.filter [] _ path id)) ih heq
  | failItems h e hid ih => exact hlast h rfl (h.failItems e hid) (hmove (@Move.failItems [] _ _ _ e hid)) ih heq
  | failSet h e hid ih => exact hlast h rfl (h.failSet e hid) (hmove (@Move.failSet [] _ _ e hid)) ih heq
  | answer h ih =>
    have hchildren := h.sound.publisher.publishChildren .initial
    exact hlast h rfl h.answer (.of_alike (hchildren.2.1.trans hchildren.1.takeErrors.2)) ih heq
  | look h ih => exact hlast h rfl h.look (.of_alike h.sound.publisher.nextResult?.alike) ih heq

/-- Each fragment lists its sets of fields. -/
theorem listed (h : History c is hand s) : s.publisher.Listed := by
  -- neither side of the records changes but for new sets of fields
  have hkeep : ∀ {p q : Publisher Task}, (∀ id, q.facet (fun r => (r.fieldSets, r.fragments)) ([], []) id =
      p.facet (fun r => (r.fieldSets, r.fragments)) ([], []) id) → p.Listed → q.Listed := by
    intro p q hsides hp
    simp only [Publisher.facet_prod, Prod.mk.injEq] at hsides
    refine ⟨fun id => ?_, fun id set => ?_⟩
    · rw [(hsides id).1]
      exact hp.once id
    · rw [(hsides id).1, (hsides set).2]
      exact hp.sets id set
  have hstatic := Publisher.Static.fieldSets.prod Publisher.Static.fragments
  have hfilter : ∀ {s : ExecStage} {path id}, s.publisher.Listed →
      (s.publishAndClose fun p => p.filter path id).publisher.Listed := by
    intro s path id hp
    refine hkeep (fun j => ((same_publishAndClose s fun p => p.filter path id).facet j).trans ?_) hp
    exact Publisher.facet_foldl (fun q k => Publisher.facet_modifyRecord fun r => by cases r <;> rfl) _
  have hfail : ∀ {s : ExecStage} {listPath id e}, s.publisher.Listed →
      ((s.publishAndClose fun p => p.filter listPath id).publishAndClose fun p => p.failItems id e).publisher.Listed := by
    intro s listPath id e hp
    have hsame := same_publishAndClose (s.publishAndClose fun p => p.filter listPath id) fun p => p.failItems id e
    exact hkeep (fun j => (hsame.facet j).trans (hstatic.facet_failItems _ id e)) (hfilter hp)
  have hfailSet : ∀ {p : Publisher Task} {id e}, p.Listed → (p.failFieldSet id e).Listed := by
    intro p id e hp
    refine hkeep (fun j => Publisher.facet_foldl (fun q f => (Publisher.Static.facet_release _ f).trans
      ((Publisher.facet_modifyRecord fun r => ?_).trans (Publisher.facet_modifyRecord fun r => ?_))) _) hp
    all_goals cases r <;> rfl
  induction h with
  | start =>
    have hinitial : ∀ id : RecordId, c.stage.publisher.facet Record.fieldSets [] id = [] ∧
        c.stage.publisher.facet Record.fragments [] id = [] := by
      rintro ⟨_ | index⟩
      · exact ⟨rfl, rfl⟩
      · simp [Publisher.facet, Publisher.record?, ExecutionContext.stage]
    refine ⟨fun id => ?_, fun id set => ?_⟩
    · rw [(hinitial id).1]
      exact List.nodup_nil
    · rw [(hinitial id).1, (hinitial set).2]
      simp
  | move h m hsteady ih =>
    rcases m.facet (a := ([], [])) hstatic (fun _ _ => rfl) fun _ _ => rfl with hsides | ⟨path, id, rfl, rfl⟩ |
      ⟨listPath, id, e, rfl, hid, rfl⟩ | ⟨id, e, rfl, hid, rfl⟩ | ⟨path, fragments, hfragments, rfl⟩
    · exact hkeep hsides ih
    · exact hfilter ih
    · exact hfail ih
    · exact hfailSet ih
    · exact ih.addFieldSet path hfragments
  | null _ path id ih => exact hfilter ih
  | failItems _ e hid ih => exact hfail ih
  | failSet _ e hid ih => exact hfailSet ih
  | answer _ ih => exact hkeep (Publisher.facet_answer (fun _ _ => rfl) _) ih
  | @look is s h ih =>
    refine hkeep (fun id => ?_) ih
    show Publisher.facet s.publisher.nextResult?.1 _ _ id = _
    unfold Publisher.facet
    rw [h.sound.publisher.record?_nextResult? ih.listsOnce]
    split
    · cases s.publisher.record? id with
      | none => rfl
      | some r => cases r <;> rfl
    · rfl

end History

/-! ### What has become of a record -/

/-- The standing of a record is what the incidents have made of it. -/
structure Standing.Told (st : Standing) (k : RecordId) (is : List Incident) : Prop where
  filtered : st.filtered = true ↔ ∃ i ∈ is, i.Loses k
  failed : st.errors ≠ [] ↔ ∃ i ∈ is, i.Fails k
  sent : st.sent = true ↔ ∃ i ∈ is, i.Sends k

/-- One more incident changes the standing of a record as far as it concerns the record. -/
private theorem Standing.Told.concat {st st' : Standing} {i : Incident} (h : st.Told k is)
    (hfiltered : st'.filtered = true ↔ st.filtered = true ∨ i.Loses k)
    (hfailed : st'.errors ≠ [] ↔ st.errors ≠ [] ∨ i.Fails k) (hsent : st'.sent = true ↔ st.sent = true ∨ i.Sends k) :
    st'.Told k (is ++ [i]) := by
  have hmem : ∀ P : Incident → Prop, (∃ j ∈ is ++ [i], P j) ↔ (∃ j ∈ is, P j) ∨ P i := by
    intro P
    simp only [List.mem_append, List.mem_singleton, or_and_right, exists_or, exists_eq_left]
  refine ⟨?_, ?_, ?_⟩
  · rw [hmem, ← h.filtered]
    exact hfiltered
  · rw [hmem, ← h.failed]
    exact hfailed
  · rw [hmem, ← h.sent]
    exact hsent

private theorem Standing.Told.nulled {st : Standing} {p : Publisher Task} {path : Path} {id : RecordId}
    (h : (p.standing k).Told k is) (heq : st = (p.filter path id).1.standing k) :
    st.Told k (is ++ [.nulled p path id]) := by
  subst heq
  obtain ⟨herrors, hsent⟩ := p.errors_filter path id k
  refine h.concat (p.filtered_filter path id k) ?_ ?_
  · rw [herrors]
    exact (or_iff_left fun hfalse => hfalse).symm
  · rw [hsent]
    exact (or_iff_left fun hfalse => hfalse).symm

namespace History

/-- The incidents tell what has become of each record. -/
theorem told (h : History c is hand s) (k : RecordId) : (s.publisher.standing k).Told k is := by
  induction h with
  | start =>
    have hnone : c.stage.publisher.standing k = {} := by
      obtain ⟨_ | index⟩ := k
      · rfl
      · simp [Publisher.standing, Publisher.facet, Publisher.record?, ExecutionContext.stage]
    rw [hnone]
    exact ⟨by simp, by simp, by simp⟩
  | move _ _ hsteady ih =>
    rw [hsteady]
    exact ih
  | null _ path record ih => exact ih.nulled (standing_publishAndClose _ _ k)
  | @failItems _ _ _ listPath record _ e _ ih =>
    refine ih.nulled ?_
    rw [standing_publishAndClose]
    exact (Publisher.Static.standing.facet_failItems _ record e).trans (standing_publishAndClose _ _ k)
  | @failSet _ _ _ set h e _ ih =>
    obtain ⟨herrors, hfiltered, hsent⟩ := Publisher.errors_failFieldSet h.sound.publisher.linked set e k
    refine ih.concat ?_ ?_ ?_
    · exact (Bool.eq_iff_iff.1 hfiltered).trans (or_iff_left fun hfalse => hfalse).symm
    · refine (not_congr herrors).trans ?_
      rw [not_and_or, not_not]
      rfl
    · exact (Bool.eq_iff_iff.1 hsent).trans (or_iff_left fun hfalse => hfalse).symm
  | @answer _ s _ ih =>
    have heq : (s.publisher.publishChildren .initial).takeErrors.1.standing k = s.publisher.standing k :=
      Publisher.facet_answer (fun _ _ => rfl) _ k
    refine Standing.Told.concat (heq ▸ ih) ?_ ?_ ?_
    all_goals exact (or_iff_left fun hfalse => hfalse).symm
  | look h ih =>
    obtain ⟨hfiltered, herrors, hsent⟩ := h.sound.publisher.standing_nextResult? h.listed k
    refine ih.concat ?_ ?_ hsent
    · exact (Bool.eq_iff_iff.1 hfiltered).trans (or_iff_left fun hfalse => hfalse).symm
    · refine (not_congr (Eq.congr_left herrors)).trans (or_iff_left fun hfalse => hfalse).symm

/-- A record is pending or was delivered exactly if it came after something that was delivered and was not lost by
then. -/
theorem reached_iff (h : History c is hand s) : k ∈ s.publisher.pending ∨ k ∈ handled (looksOf is) ↔
    ∃ i ∈ is, ∃ parent ∈ i.delivered, i.publisher.Follows parent k := by
  have hmem : ∀ (is : List Incident) (i : Incident), (∃ j ∈ is ++ [i], ∃ parent ∈ j.delivered,
      j.publisher.Follows parent k) ↔ (∃ j ∈ is, ∃ parent ∈ j.delivered, j.publisher.Follows parent k) ∨
      ∃ parent ∈ i.delivered, i.publisher.Follows parent k := by
    intro is i
    simp only [List.mem_append, List.mem_singleton, or_and_right, exists_or, exists_eq_left]
  -- an incident with which nothing is delivered
  have hskip : ∀ {is : List Incident} {i : Incident} {s s' : ExecStage}, (k ∈ s.publisher.pending ∨
      k ∈ handled (looksOf is) ↔ ∃ j ∈ is, ∃ parent ∈ j.delivered, j.publisher.Follows parent k) →
      s'.publisher.pending = s.publisher.pending → i.delivered = [] → i.look? = none →
      (k ∈ s'.publisher.pending ∨ k ∈ handled (looksOf (is ++ [i])) ↔
        ∃ j ∈ is ++ [i], ∃ parent ∈ j.delivered, j.publisher.Follows parent k) := by
    intro is i s s' ih hpending hnone hlook
    have hlooks : looksOf (is ++ [i]) = looksOf is := by
      rw [looksOf_append]
      simp [looksOf, hlook]
    rw [hmem, hnone, hpending, hlooks, ih]
    simp
  induction h with
  | start => simp [ExecutionContext.stage, looksOf, handled]
  | move _ m _ ih =>
    rw [m.retains.pending]
    exact ih
  | null _ path id ih => exact hskip ih (@Move.filter [] _ path id).retains.pending rfl rfl
  | failItems _ e hid ih => exact hskip ih (@Move.failItems [] _ _ _ e hid).retains.pending rfl rfl
  | failSet _ e hid ih => exact hskip ih (@Move.failSet [] _ _ e hid).retains.pending rfl rfl
  | @answer is s h ih =>
    obtain ⟨-, -, hpending, -⟩ := h.sound.publisher.publishChildren .initial
    have hlooks : looksOf (is ++ [.answered s.publisher]) = looksOf is := by
      rw [looksOf_append]
      exact List.append_nil _
    refine Iff.trans ?_ ((hmem is _).trans (or_congr_left ih.symm)).symm
    rw [hlooks]
    have hk : k ∈ (s.publisher.publishChildren .initial).pending ↔ _ := hpending k
    refine (or_congr_left hk).trans ?_
    simp only [Incident.delivered, List.mem_singleton, exists_eq_left, Incident.publisher]
    exact or_right_comm
  | @look is s h ih =>
    have hhandled := h.sound.publisher.nextResult?
    have hlooks : looksOf (is ++ [.looked s.publisher]) = looksOf is ++ [s.publisher] := looksOf_append _ _
    refine Iff.trans ?_ ((hmem is _).trans (or_congr_left ih.symm)).symm
    rw [hlooks, handled_concat, List.mem_append]
    have hk : k ∈ s.look.publisher.pending ↔ _ := hhandled.pending k
    rw [hk]
    show _ ↔ _ ∨ ∃ parent ∈ s.publisher.released, s.publisher.Follows parent k
    constructor
    · rintro ((⟨hk, -⟩ | hfollows) | hk | hk)
      · exact .inl (.inl hk)
      · exact .inr hfollows
      · exact .inl (.inr hk)
      · exact .inl (.inl (h.sound.publisher.prompt.released k hk))
    · rintro ((hk | hk) | hfollows)
      · by_cases hreleased : k ∈ s.publisher.released
        · exact .inr (.inr hreleased)
        · exact .inl (.inl ⟨hk, hreleased⟩)
      · exact .inr (.inl hk)
      · exact .inl (.inr hfollows)

end History

end GraphQL
