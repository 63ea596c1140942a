import GraphQL.Proofs.Meaning.Holdings

/-!
# What records deliver has its place

The fields of a set are asked for inside of what an earlier record stands for, and so is the list of a record of items
(`Ledger.Places`).  Running work keeps this: a set of fields is added for an object that is completed for a record, and a
stream for a list, whose records come after that one.
-/

namespace GraphQL

open Stage

/-- What a record delivers is asked for, with other fields perhaps, inside of what an earlier record stands for. -/
structure Ledger.Places (c : ExecutionContext) (l : Ledger) (p : Publisher Task) : Prop where
  sets : ∀ id, p.IsFieldSet id → ∃ home all, home.index < id.index ∧
    l.Encloses c p home (p.seat id) (c.asked { l.sets id with fields := all })
  items : ∀ stream id position, p.IsAt l stream id position → ∃ home, home.index < id.index ∧
    l.EnclosesList c p home (l.lists stream)

variable {c : ExecutionContext} {l l' : Ledger} {p q : Publisher Task} {hand hand' : List RecordId} {s s' : ExecStage}
  {stream : StreamId} {id : RecordId} {position : Nat}

namespace Publisher

/-- New records hold nothing. -/
def AddsNothing (p q : Publisher Task) : Prop := ∀ j : RecordId, p.records.size ≤ j.index → q.content j = .nothing

theorem AddsNothing.of_contents (h : ∀ j, q.content j = p.content j) : p.AddsNothing q :=
  fun j hj => (h j).trans (content_of_size_le hj)

/-- A record that is there gets another content. -/
theorem AddsNothing.of_ite {held : Content} (hid : id.index < p.records.size)
    (h : ∀ j, q.content j = if j = id then held else p.content j) : p.AddsNothing q := by
  intro j hj
  rw [h, if_neg (by rintro rfl; exact Nat.not_lt.2 hj hid)]
  exact content_of_size_le hj

/-- What a new record holds. -/
theorem content_of_new {held : Content} {r : Record} (hr : q.record? id = some r) (hne : r.content ≠ .nothing)
    (hge : p.records.size ≤ id.index)
    (h : ∀ j, q.content j = if j = ⟨p.records.size⟩ then held else p.content j) :
    id = ⟨p.records.size⟩ ∧ r.content = held := by
  have hheld := (content_of_record? hr).symm.trans (h id)
  split at hheld
  · rename_i hnew
    exact ⟨hnew, hheld⟩
  · exact absurd (hheld.trans (content_of_size_le hge)) hne

end Publisher

open Publisher

namespace Ledger.Places

/-- Records keep their places, and new ones have some. -/
theorem keeps (h : l.Places c p) (hl : p.Linked) (hk : l.Keeps p l' q)
    (hsets : ∀ id, q.IsFieldSet id → p.records.size ≤ id.index → ∃ home all, home.index < id.index ∧
      l'.Encloses c q home (q.seat id) (c.asked { l'.sets id with fields := all }))
    (hitems : ∀ stream id position, q.IsAt l' stream id position → p.records.size ≤ id.index →
      ∃ home, home.index < id.index ∧ l'.EnclosesList c q home (l'.lists stream)) : l'.Places c q := by
  refine ⟨fun id hid => ?_, fun stream id position hat => ?_⟩
  · rcases Nat.lt_or_ge id.index p.records.size with hlt | hge
    · obtain ⟨home, all, hhome, hwithin⟩ := h.sets id (hk.grows.isFieldSet_old hlt hid)
      refine ⟨home, all, hhome, ?_⟩
      rw [hk.grows.seat hlt, hk.sets id hlt]
      exact hk.encloses hl hwithin
    · exact hsets id hid hge
  · rcases Nat.lt_or_ge id.index p.records.size with hlt | hge
    · have hold := hk.isAt_old hl hat hlt
      obtain ⟨home, hhome, hlist⟩ := h.items stream id position hold
      rw [hk.lists_of_isAt hl hold]
      exact ⟨home, hhome, hk.enclosesList hl hlist⟩
    · exact hitems stream id position hat hge

theorem of_addsNothing (h : l.Places c p) (hl : p.Linked) (hk : l.Keeps p l' q) (hadds : p.AddsNothing q) :
    l'.Places c q := by
  refine h.keeps hl hk ?_ ?_
  · rintro id ⟨r, hr⟩ hge
    exact absurd ((content_of_record? hr).symm.trans (hadds id hge)) (by simp [Record.content])
  · rintro stream id position ⟨r, hr, -⟩ hge
    exact absurd ((content_of_record? hr).symm.trans (hadds id hge)) (by simp [Record.content])

end Ledger.Places

/-! ### Deeds -/

/-- After a deed, old records stand for what they stood for. -/
theorem Deed.keeps (d : Deed c l hand s l' hand' s') : l.Keeps s.publisher l' s'.publisher :=
  ⟨d.lists, d.sets, d.move.growsFrom⟩

/-- Deeds give new records a place. -/
theorem Deed.places (d : Deed c l hand s l' hand' s') (hl : s.publisher.Linked) (h : l.Places c s.publisher) :
    l'.Places c s'.publisher := by
  have hk := d.keeps
  have hsame : s.publisher.AddsNothing s'.publisher → l'.Places c s'.publisher := h.of_addsNothing hl hk
  cases d with
  | aside _ _ _ hleaves => exact hsame (.of_contents hleaves.contents)
  | error e => exact hsame (.of_contents (content_addError _ _ e))
  | stream => exact hsame (.of_contents fun _ => rfl)
  | failSet e => exact hsame (.of_contents (content_failFieldSet _ _ e))
  | @fieldSet _ _ home path fields fragments _ _ _ hwithin =>
    have hcontent := content_addFieldSet s.publisher path fragments
    refine h.keeps hl hk ?_ ?_
    · rintro id ⟨r, hr⟩ hge
      obtain ⟨rfl, hheld⟩ := content_of_new hr (by simp [Record.content]) hge hcontent
      obtain ⟨all, hwithin⟩ := hwithin
      refine ⟨home, all, hwithin.lt_size, ?_⟩
      rw [seat_fieldSet hr, (Content.fields.inj hheld).1,
        show (l.withSet ⟨s.publisher.records.size⟩ fields).sets ⟨s.publisher.records.size⟩ = fields from
          Function.update_self _ _ _]
      exact hk.encloses hl hwithin
    · rintro stream id position ⟨r, hr, -⟩ hge
      exact absurd (content_of_new hr (by simp [Record.content]) hge hcontent).2 (by simp [Record.content])
  | @items _ _ stream path parent _ hparent _ _ hlast =>
    have hcontent := content_addItems s.publisher stream path parent
    refine h.keeps hl hk ?_ ?_
    · rintro id ⟨r, hr⟩ hge
      exact absurd (content_of_new hr (by simp [Record.content]) hge hcontent).2 (by simp [Record.content])
    · rintro stream' id position ⟨r, hr, hstream, -⟩ hge
      obtain ⟨rfl, hheld⟩ := content_of_new hr (by simp [Record.content]) hge hcontent
      obtain rfl : stream = stream' := (congrArg Batch.stream (Content.batch.inj hheld)).symm.trans hstream
      rcases hlast with ⟨-, -, hlist⟩ | ⟨-, before, hbefore, -⟩
      · exact ⟨parent, hparent, hk.enclosesList hl hlist⟩
      · -- the list of the items before
        obtain ⟨home, hhome, hlist⟩ := h.items stream parent before hbefore
        exact ⟨home, Nat.lt_trans hhome hparent, hk.enclosesList hl hlist⟩
  | final hlast =>
    obtain ⟨⟨r, hr, -⟩, -⟩ := hlast
    exact hsame (.of_ite (lt_size_of_record? hr) (content_setFinal hr))
  | completeItems hat =>
    obtain ⟨r, hr, -⟩ := hat
    exact hsame (.of_ite (lt_size_of_record? hr) (content_completeItems hr _))
  | @failItems _ _ listPath _ id _ e _ hat =>
    obtain ⟨r, hr, -⟩ := hat
    have hleaves := Publisher.Leaves.filter s listPath id
    have hlt := lt_size_of_record? hr
    obtain ⟨r', hr', -⟩ := content_eq_batch.1 ((hleaves.contents id).trans (content_of_record? hr))
    have hfails := content_failItems hr' e
    simp only [hleaves.contents] at hfails
    exact hsame (.of_ite hlt fun j => (content_same (same_publishAndClose _ fun p => p.failItems id e) j).trans (hfails j))
  | endItems hlast =>
    obtain ⟨⟨r, hr, -⟩, -⟩ := hlast
    exact hsame (.of_ite (lt_size_of_record? hr) (content_endItems hr))
  | retireItems hlast =>
    obtain ⟨⟨r, hr, -⟩, -⟩ := hlast
    exact hsame (.of_ite (lt_size_of_record? hr) (content_retireItems hr))

/-- Series of deeds give new records a place. -/
theorem Deeds.places (d : Deeds c l hand s l' hand' s') (hs : Sound hand s) (h : l.Places c s.publisher) :
    l'.Places c s'.publisher := by
  induction d with
  | refl => exact h
  | step before d ih => exact d.places (before.moves.sound hs).publisher.linked ih

end GraphQL
