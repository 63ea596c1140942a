import GraphQL.Proofs.Execution.Passage
import GraphQL.Proofs.Meaning.Deeds

/-!
# Released fragments have their data

While work runs, every set of fields without data is owed by its fragments, and what is released waits for nothing or has
errors (`Stage.Owing`).  A set that is reported while work runs does not belong to a fragment that is released already:
work runs only as long as nothing is released but what follows completed items (`Publisher.Calm`), and a new set belongs
to fragments that come after a record in hand, or after other fragments.
-/

namespace GraphQL

open Stage

/-- Released fragments without errors come after items that are completed, and after nothing else. -/
def Publisher.Calm (p : Publisher Task) : Prop :=
  ∀ f ∈ p.released, p.IsFragment f → (p.duty f).errors = [] → (∃ parent, f ∈ p.kids parent) ∧
    ∀ parent, f ∈ p.kids parent → ∃ r, p.record? parent = some (.items r) ∧ r.completed = true

/-- What is owed by fragments, with records in hand. -/
structure Stage.Owing (hand : List RecordId) (s : ExecStage) : Prop where
  owes : s.publisher.Owes (s.awaited ++ hand)
  whole : s.publisher.Whole

variable {c : ExecutionContext} {l l' : Ledger} {hand hand' : List RecordId} {s s' : ExecStage}

namespace Publisher

variable {p q : Publisher Task}

theorem errors_duty (p : Publisher Task) (id : RecordId) : (p.duty id).errors = (p.standing id).errors := by
  unfold duty standing facet
  cases p.record? id with
  | none => rfl
  | some r => cases r <;> rfl

theorem duty_eq_of_size_le {id : RecordId} (h : p.records.size ≤ id.index) : p.duty id = {} := by
  unfold duty facet
  rw [show p.record? id = none from Array.getElem?_eq_none h]
  rfl

theorem Calm.of_released_nil (h : p.released = []) : p.Calm := by
  intro f hf
  rw [h] at hf
  exact absurd hf (by simp)

/-- What is released while records are added and changed does not disturb the calm if it is no fragment, or has errors. -/
theorem Calm.grows (h : p.Calm) (hp : p.Sound) (hg : Grows p.records.size p q) (hl : q.Linked)
    (herrors : ∀ id, (p.duty id).errors ⊆ (q.duty id).errors)
    (hreleased : ∀ f ∈ q.released, f ∈ p.released ∨ q.IsItems f ∨ (q.duty f).errors ≠ []) : q.Calm := by
  intro f hf hfragment hnil
  rcases hreleased f hf with hf | ⟨r, hr⟩ | hne
  · obtain ⟨r, hr, -⟩ := hp.prompt.deliverable f (hp.prompt.released f hf)
    have hlt := lt_size_of_record? hr
    have hold : p.IsFragment f := by
      obtain ⟨r', hr'⟩ := hfragment
      obtain ⟨r'', hr'', hgr⟩ := hg.records f r hr
      rw [hr'] at hr''
      cases hr''
      cases hgr with
      | fragment => exact ⟨_, hr⟩
    obtain ⟨⟨parent, hparent⟩, hall⟩ := h f hf hold (List.subset_nil.1 (hnil ▸ herrors f))
    refine ⟨⟨parent, hg.kids hparent⟩, fun parent hparent => ?_⟩
    obtain ⟨r, hr, hcompleted⟩ := hall parent (hg.mem_kids_old hl hlt hparent)
    obtain ⟨r', hr', hgr⟩ := hg.records parent _ hr
    cases hgr with
    | items _ _ _ hc => exact ⟨_, hr', hc hcompleted⟩
  · obtain ⟨r', hr'⟩ := hfragment
    rw [hr] at hr'
    exact absurd hr' (by simp)
  · exact absurd hnil hne

/-- A set of fields that fails leaves errors with all its fragments. -/
theorem errors_of_failed (hl : p.Linked) {set : RecordId} (e : Error) {f : RecordId}
    (hf : f ∈ ((p.failFieldSet set e).duty set).fragments) : ((p.failFieldSet set e).duty f).errors ≠ [] := by
  rw [(Eases.failFieldSet hl set e).fragments set] at hf
  rw [errors_duty]
  intro hnil
  exact ((errors_failFieldSet hl set e f).1.1 hnil).2 (mem_fragments_duty.1 hf)

/-- What a record of items waits for. -/
theorem IsItems.duty {id : RecordId} (h : p.IsItems id) : p.duty id = {} := by
  obtain ⟨r, hr⟩ := h
  exact duty_of_record? hr

theorem mem_released_release {id f : RecordId} (h : f ∈ (p.release id).released) : f ∈ p.released ∨ f = id := by
  unfold release at h
  split at h
  · exact mem_addNew.1 h
  · exact .inl h

/-- Nothing is owed less, and only items and what has errors are released. -/
structure Soothes (p q : Publisher Task) : Prop where
  eases : p.Eases (fun _ => False) True q
  released : ∀ f ∈ q.released, f ∈ p.released ∨ q.IsItems f ∨ (q.duty f).errors ≠ []

namespace Soothes

theorem of_eases (h : p.Eases (fun _ => False) False q) : p.Soothes q :=
  ⟨h.mono (fun _ => id) False.elim, fun f hf => (h.released f hf).imp_right fun hf => .inr (hf.resolve_right fun h => h.1)⟩

/-- Items are changed and released. -/
theorem settleItems {id : RecordId} (hid : p.IsItems id) (g : ItemsRecord → ItemsRecord) :
    p.Soothes ((p.modifyItems id g).release id) := by
  obtain ⟨r, hr⟩ := hid
  have hr' : (p.modifyItems id g).record? id = some (.items (g r)) := by
    unfold modifyItems
    rw [record?_modifyRecord, if_pos rfl, hr]
    rfl
  have hid' : (p.modifyItems id g).IsItems id := ⟨_, hr'⟩
  refine ⟨(Eases.modifyItems p id g).trans (Eases.release _ id (.inr ⟨trivial, by rw [hid'.duty]⟩)), fun f hf => ?_⟩
  rcases mem_released_release hf with hf | rfl
  · exact .inl hf
  · exact .inr (.inl ⟨_, (record?_release _ _ _).trans hr'⟩)

theorem failItems {id : RecordId} (hid : p.IsItems id) (e : Error) : p.Soothes (p.failItems id e).1 := by
  have hsettle := settleItems hid fun r => { r with final := true, completed := true }
  obtain ⟨r, hr⟩ := hid
  unfold Publisher.failItems
  rw [hr]
  dsimp only
  -- the errors of the stream are none of the duties
  have hsame : ∀ (q : Publisher Task) (streams : Array StreamRecord),
      ({ q with streams := streams }.release id).records = (q.release id).records ∧
        ({ q with streams := streams }.release id).released = (q.release id).released := by
    intro q streams
    unfold release
    split <;> exact ⟨rfl, rfl⟩
  obtain ⟨hrecords, hreleased⟩ := hsame (p.modifyItems id fun r => { r with final := true, completed := true })
    ((p.modifyItems id fun r => { r with final := true, completed := true }).streams.modify r.stream.index
      fun s => { s with errors := s.errors ++ [e] })
  have hrecord : ∀ j, ({ (p.modifyItems id fun r => { r with final := true, completed := true }) with
      streams := (p.modifyItems id fun r => { r with final := true, completed := true }).streams.modify r.stream.index
        fun s => { s with errors := s.errors ++ [e] } }.release id).record? j =
      ((p.modifyItems id fun r => { r with final := true, completed := true }).release id).record? j := by
    intro j
    unfold record?
    rw [hrecords]
  refine ⟨hsettle.eases.trans (Eases.of_duty (fun j => facet_of_record? (hrecord j)) fun f hf => .inl (hreleased ▸ hf)),
    fun f hf => ?_⟩
  rw [hreleased] at hf
  rcases hsettle.released f hf with hf | ⟨rf, hrf⟩ | hne
  · exact .inl hf
  · exact .inr (.inl ⟨rf, (hrecord f).trans hrf⟩)
  · exact .inr (.inr fun hnil => hne (by rw [← hnil]; exact congrArg Duty.errors (facet_of_record? (hrecord f)).symm))

end Soothes

end Publisher

/-! ### Deeds -/

namespace Stage.Owing

/-- A move that soothes. -/
theorem soothe (h : s.Owing hand) (m : Move hand s hand' s') (hs : Sound hand s)
    (hq : s.publisher.Soothes s'.publisher) : s'.Owing hand' := by
  refine ⟨h.owes.eases hq.eases (fun set hset => ?_) fun _ => False.elim, h.whole.eases hq.eases⟩
  rcases Nat.lt_or_ge set.index s.publisher.records.size with hlt | hge
  · exact .inr ⟨(m.passes hs).opened set hset hlt, fun h => h⟩
  · exact .inl (by rw [Publisher.duty_eq_of_size_le hge])

/-- A set of fields that is reported while it is calm does not belong to a released fragment without errors. -/
theorem not_released (h : s.Owing hand) (hs : Sound hand s) (hcalm : s.publisher.Calm) {home f : RecordId}
    (hfragment : s.publisher.IsFragment f) (hhome : home ∈ hand ∨ s.publisher.pending = [])
    (hroot : s.publisher.Near home f ∨ s.publisher.AfterFragments f) (hf : f ∈ s.publisher.released) :
    (s.publisher.duty f).errors ≠ [] := by
  intro herrors
  have hhand : home ∈ hand := by
    refine hhome.resolve_right fun hnil => ?_
    have hpending := hs.publisher.prompt.released f hf
    rw [hnil] at hpending
    exact absurd hpending (by simp)
  obtain ⟨⟨parent, hparent⟩, hall⟩ := hcalm f hf hfragment herrors
  obtain ⟨r, hr, hcompleted⟩ := hall parent hparent
  rcases hroot with (hbelongs | ⟨hset, honly⟩) | hafter
  · -- the set would still be owed
    have hunfinished := h.owes.running home (List.mem_append_right _ hhand) f (Publisher.mem_fragments_duty.2 hbelongs)
    rcases h.whole f hf with hnil | hne
    · rw [hnil] at hunfinished
      exact absurd hunfinished (by simp)
    · exact hne herrors
  · obtain rfl := honly parent hparent
    rcases hs.opened parent hhand with hset' | ⟨r', hr', hopen⟩
    · exact hset hset'
    · rw [hr] at hr'
      cases hr'
      rw [hcompleted] at hopen
      exact absurd hopen (by simp)
  · obtain ⟨r', hr'⟩ := hafter parent hparent
    rw [hr] at hr'
    exact absurd hr' (by simp)

end Stage.Owing

theorem awaited_withPublisher {q : Publisher Task} (h : q.inbox = s.publisher.inbox) :
    (s.withPublisher q).awaited = s.awaited := by
  show (s.work.ready ++ s.work.waiting ++ q.inbox).map Task.record = _
  rw [h]
  rfl

/-- A deed in the calm leaves what is owed, and the calm. -/
theorem Deed.owing (d : Deed c l hand s l' hand' s') (hs : Sound hand s) (h : s.Owing hand) (hcalm : s.publisher.Calm) :
    s'.Owing hand' ∧ s'.publisher.Calm := by
  have hlinked := (d.move.sound hs).publisher.linked
  have hsoothe : s.publisher.Soothes s'.publisher → s'.Owing hand' ∧ s'.publisher.Calm := fun hq =>
    ⟨h.soothe d.move hs hq, hcalm.grows hs.publisher d.move.growsFrom hlinked hq.eases.errors hq.released⟩
  cases d with
  | aside _ _ m hleaves => exact hsoothe (.of_eases hleaves.eases)
  | error e hid => exact hsoothe (.of_eases (Publisher.Eases.addError _ _ e))
  | @fieldSet _ _ home path _ fragments hfragments hhome hroots =>
    have hsame : (s.publisher.addFieldSet path fragments).1.released = s.publisher.released :=
      List.foldlRecOn (motive := fun q : Publisher Task => q.released = s.publisher.released) fragments _ rfl
        fun _ hq _ _ => hq
    have hfailed : ∀ f ∈ fragments, f ∈ s.publisher.released → (s.publisher.duty f).errors ≠ [] :=
      fun f hmem hf => h.not_released hs hcalm (hfragments f hmem) hhome (hroots f hmem) hf
    have hnew : (⟨s.publisher.records.size⟩ : RecordId) ∉ s.publisher.released := by
      intro hmem
      obtain ⟨r, hr, -⟩ := hs.publisher.prompt.deliverable _ (hs.publisher.prompt.released _ hmem)
      exact Nat.lt_irrefl _ (Publisher.lt_size_of_record? hr)
    refine ⟨⟨?_, h.whole.addFieldSet hfragments hfailed hnew⟩, ?_⟩
    · have howes : (s.publisher.addFieldSet path fragments).1.Owes _ := h.owes.addFieldSet hfragments hs.publisher.linked
      rw [awaited_withPublisher (Publisher.Adds.addFieldSet path hfragments).inbox]
      refine ⟨fun set hset => howes.running set ?_, howes.done⟩
      rcases List.mem_append.1 hset with hset | hset
      · exact List.mem_cons_of_mem _ (List.mem_append_left _ hset)
      · rcases List.mem_cons.1 hset with rfl | hset
        · exact List.mem_cons_self
        · exact List.mem_cons_of_mem _ (List.mem_append_right _ hset)
    · refine hcalm.grows hs.publisher (Publisher.Grows.addFieldSet _ path _) hlinked (fun id => ?_) fun f hf =>
        .inl (hsame ▸ hf)
      show _ ⊆ ((s.publisher.addFieldSet path fragments).1.duty id).errors
      rw [Publisher.duty_addFieldSet path hfragments]
      split
      · exact List.Subset.refl _
      · split
        · rename_i heq
          rw [heq, Publisher.duty_eq_of_size_le
          (show s.publisher.records.size ≤ (⟨s.publisher.records.size⟩ : RecordId).index from Nat.le_refl _)]
          exact List.Subset.refl _
        · exact List.Subset.refl _
  | stream list hook => exact hsoothe (.of_eases (.of_duty (fun _ => rfl) fun _ hf => .inl hf))
  | items => exact hsoothe (.of_eases ((Publisher.Eases.push _ rfl).trans (Publisher.Eases.addChild _ _ _)))
  | final => exact hsoothe (.of_eases (Publisher.Eases.modifyItems _ _ _))
  | @failSet _ _ id e hid =>
    have heases := Publisher.Eases.failFieldSet hs.publisher.linked id e
    obtain ⟨hnot, hnot'⟩ := hs.not_mem_hand
    refine ⟨⟨h.owes.eases heases (fun set hset => .inr ?_) fun set heq => .inr fun f hf => ?_, h.whole.eases heases⟩,
      hcalm.grows hs.publisher (Publisher.Grows.failFieldSet _ id e) hlinked heases.errors fun f hf =>
        (heases.released f hf).imp_right fun hf => .inr (hf.resolve_right fun h => h.1)⟩
    · have hinbox : (s.publisher.failFieldSet id e).inbox = s.publisher.inbox :=
        (Publisher.Updates.failFieldSet (D := fun _ => False) (F := fun _ => False) s.publisher id e).inbox
      rw [awaited_withPublisher hinbox] at hset
      rcases List.mem_append.1 hset with hset | hset
      · exact ⟨List.mem_append_left _ hset, fun heq => hnot (heq ▸ hset)⟩
      · exact ⟨List.mem_append_right _ (List.mem_cons_of_mem _ hset), fun heq => hnot' (heq ▸ hset)⟩
    · subst heq
      exact Publisher.errors_of_failed hs.publisher.linked e hf
  | completeItems hat => exact hsoothe (.settleItems hat.isItems _)
  | @failItems _ _ listPath stream id position e hid hat =>
    have hleaves := Publisher.Leaves.filter s listPath id
    have hitems : (s.publishAndClose fun p => p.filter listPath id).publisher.IsItems id := by
      obtain ⟨r, hr⟩ := hat.isItems
      obtain ⟨r', hr', hg⟩ := ((Publisher.Grows.filter (n := 0) s.publisher listPath id).trans
        ((same_publishAndClose s fun p => p.filter listPath id).grows 0)).records id _ hr
      cases hg with
      | items => exact ⟨_, hr'⟩
    have hfail := Publisher.Soothes.failItems hitems e
    have hsame := same_publishAndClose (s.publishAndClose fun p => p.filter listPath id) fun p => p.failItems id e
    refine hsoothe ⟨((hleaves.eases.mono (fun _ hgone => hgone) False.elim).trans hfail.eases).trans (.of_same hsame), ?_⟩
    intro f hf
    rw [hsame.released] at hf
    have hrecord : ∀ {r}, ((s.publishAndClose fun p => p.filter listPath id).publisher.failItems id e).1.record? f = some r →
        ((s.publishAndClose fun p => p.filter listPath id).publishAndClose fun p => p.failItems id e).publisher.record? f =
          some r := fun hr => (hsame.record? f).trans hr
    have herrors : ((s.publishAndClose fun p => p.filter listPath id).publisher.failItems id e).1.duty f =
        ((s.publishAndClose fun p => p.filter listPath id).publishAndClose fun p => p.failItems id e).publisher.duty f :=
      (Publisher.facet_of_record? (hsame.record? f)).symm
    rcases hfail.released f hf with hf | ⟨r, hr⟩ | hne
    · rcases hleaves.eases.released f hf with hf | hne | ⟨hfalse, -⟩
      · exact .inl hf
      · refine .inr (.inr fun hnil => hne (List.subset_nil.1 ?_))
        rw [← hnil, ← herrors]
        exact hfail.eases.errors f
      · exact hfalse.elim
    · exact .inr (.inl ⟨r, hrecord hr⟩)
    · exact .inr (.inr (herrors ▸ hne))
  | @endItems _ _ stream id hlast =>
    obtain ⟨r, hr⟩ := hlast.isItems
    have hend : (s.publisher.setEnd id).IsItems id := ⟨_, Publisher.record?_setEnd hr⟩
    have hsettle := Publisher.Soothes.settleItems hend fun r => { r with items := [], completed := true }
    exact hsoothe ⟨(Publisher.Eases.modifyItems _ _ _).trans hsettle.eases, hsettle.released⟩
  | retireItems hlast => exact hsoothe (.settleItems hlast.isItems _)

/-- Deeds in the calm leave what is owed, and the calm. -/
theorem Deeds.owing (d : Deeds c l hand s l' hand' s') (hs : Sound hand s) (h : s.Owing hand) (hcalm : s.publisher.Calm) :
    s'.Owing hand' ∧ s'.publisher.Calm := by
  induction d with
  | refl => exact ⟨h, hcalm⟩
  | step before d ih => exact d.owing (before.moves.sound hs) ih.1 ih.2

/-- A set of fields gets its data. -/
theorem Stage.Owing.completeFieldSet {id : RecordId} (h : s.Owing (id :: hand)) (hs : Sound (id :: hand) s)
    (hid : s.publisher.IsFieldSet id) (v : Json) :
    (s.withPublisher (s.publisher.completeFieldSet id v)).Owing hand := by
  have heases := Publisher.Eases.completeFieldSet s.publisher id v
  obtain ⟨hnot, hnot'⟩ := hs.not_mem_hand
  have hinbox : (s.publisher.completeFieldSet id v).inbox = s.publisher.inbox :=
    (Publisher.Updates.completeFieldSet (D := fun _ => False) (F := fun _ => False) s.publisher id v).inbox
  refine ⟨h.owes.eases heases (fun set hset => .inr ?_) fun set heq => .inl ?_, h.whole.eases heases⟩
  · rw [awaited_withPublisher hinbox] at hset
    rcases List.mem_append.1 hset with hset | hset
    · exact ⟨List.mem_append_left _ hset, fun heq => hnot (heq ▸ hset)⟩
    · exact ⟨List.mem_append_right _ (List.mem_cons_of_mem _ hset), fun heq => hnot' (heq ▸ hset)⟩
  · subst heq
    obtain ⟨r, hr⟩ := hid
    have hcontent := (Publisher.content_completeFieldSet hr v set).trans (if_pos rfl)
    obtain ⟨r', hr', -, hdata⟩ := Publisher.content_eq_fields.1 hcontent
    show ((s.publisher.completeFieldSet set v).duty set).fulfilled = true
    rw [Publisher.duty_of_record? hr']
    simp [Record.duty, hdata]

end GraphQL
