import GraphQL.Proofs.Delivery.Losses
import GraphQL.Proofs.Delivery.Retention

/-!
# What fragments wait for

Each set of fields is fulfilled, or its fragments still wait for it, or they have failed (`Publisher.Owes`).  So a fragment
without errors that waits for nothing has the data of all its sets.  Most changes of a publisher only ease what is owed
(`Publisher.Eases`); a new set of fields is owed by its fragments.
-/

namespace GraphQL

/-- The sets that a fragment waits for and its errors, and the fragments of a set of fields and whether it has its data. -/
structure Duty where
  unfinished : List RecordId := []
  errors : List Error := []
  fragments : List RecordId := []
  fulfilled : Bool := false

/-- What a record waits for or has brought. -/
def Record.duty : Record → Duty
  | fragment r => { unfinished := r.unfinished, errors := r.errors }
  | fieldSet r => { fragments := r.fragments, fulfilled := r.data.isSome || r.sent }
  | _ => {}

namespace Publisher

variable {ω : Type} {p q u : Publisher ω} {gone gone' : RecordId → Prop} {done done' : Prop}

/-- What a record waits for or has brought. -/
def duty (p : Publisher ω) (id : RecordId) : Duty := p.facet Record.duty {} id

theorem duty_of_record? {id : RecordId} {r : Record} (h : p.record? id = some r) : p.duty id = r.duty := by
  unfold duty facet
  rw [h]
  rfl

theorem mem_fragments_duty {set fragment : RecordId} : fragment ∈ (p.duty set).fragments ↔ p.BelongsTo set fragment := by
  unfold duty facet BelongsTo
  cases hr : p.record? set with
  | none => simp
  | some r => cases r <;> simp [Record.duty]

/-- Nothing new is owed: only some sets are taken off those that fragments wait for, and what is released has errors or,
if anything is `done`, waits for nothing. -/
structure Eases (gone : RecordId → Prop) (done : Prop) (p q : Publisher ω) : Prop where
  fragments : ∀ id, (q.duty id).fragments = (p.duty id).fragments
  fulfilled : ∀ id, (p.duty id).fulfilled = true → (q.duty id).fulfilled = true
  errors : ∀ id, (p.duty id).errors ⊆ (q.duty id).errors
  sub : ∀ id, (q.duty id).unfinished ⊆ (p.duty id).unfinished
  kept : ∀ id, ∀ set ∈ (p.duty id).unfinished, ¬ gone set → set ∈ (q.duty id).unfinished
  released : ∀ id ∈ q.released, id ∈ p.released ∨ (q.duty id).errors ≠ [] ∨ done ∧ (q.duty id).unfinished = []

namespace Eases

theorem of_duty (h : ∀ id, q.duty id = p.duty id)
    (hreleased : ∀ id ∈ q.released, id ∈ p.released ∨ (q.duty id).errors ≠ [] ∨ done ∧ (q.duty id).unfinished = []) :
    Eases gone done p q := by
  refine ⟨?_, ?_, ?_, ?_, ?_, hreleased⟩ <;> intro id <;> rw [h id]
  · exact fun hf => hf
  · exact List.Subset.refl _
  · exact List.Subset.refl _
  · exact fun set hset _ => hset

theorem refl (p : Publisher ω) : Eases gone done p p := of_duty (fun _ => rfl) fun _ hid => .inl hid

theorem trans (h : Eases gone done p q) (h' : Eases gone done q u) : Eases gone done p u where
  fragments id := (h'.fragments id).trans (h.fragments id)
  fulfilled id hf := h'.fulfilled id (h.fulfilled id hf)
  errors id := List.Subset.trans (h.errors id) (h'.errors id)
  sub id := List.Subset.trans (h'.sub id) (h.sub id)
  kept id set hset hgone := h'.kept id set (h.kept id set hset hgone) hgone
  released id hid := by
    rcases h'.released id hid with hid | hid
    · rcases h.released id hid with hid | hid | ⟨hdone, hid⟩
      · exact .inl hid
      · exact .inr (.inl fun hnil => hid (List.subset_nil.1 (hnil ▸ h'.errors id)))
      · exact .inr (.inr ⟨hdone, List.subset_nil.1 (hid ▸ h'.sub id)⟩)
    · exact .inr hid

theorem mono (h : Eases gone done p q) (hgone : ∀ id, gone id → gone' id) (hdone : done → done') :
    Eases gone' done' p q :=
  ⟨h.fragments, h.fulfilled, h.errors, h.sub, fun id set hset hnot => h.kept id set hset fun hg => hnot (hgone set hg),
    fun id hid => (h.released id hid).imp_right (Or.imp_right (And.imp_left hdone))⟩

theorem foldl {β : Type} {step : Publisher ω → β → Publisher ω} (bs : List β) (hstep : ∀ p, ∀ b ∈ bs, Eases gone done p (step p b))
    (p : Publisher ω) : Eases gone done p (bs.foldl step p) :=
  List.foldlRecOn (motive := Eases gone done p) bs _ (refl p) fun q hq b hb => hq.trans (hstep q b hb)

/-- A record is changed. -/
theorem modifyRecord (p : Publisher ω) (id : RecordId) {f : Record → Record}
    (hf : ∀ r, p.record? id = some r → (f r).duty.fragments = r.duty.fragments ∧
      (r.duty.fulfilled = true → (f r).duty.fulfilled = true) ∧ r.duty.errors ⊆ (f r).duty.errors ∧
      (f r).duty.unfinished ⊆ r.duty.unfinished ∧ ∀ set ∈ r.duty.unfinished, ¬ gone set → set ∈ (f r).duty.unfinished) :
    Eases gone done p (p.modifyRecord id f) := by
  have hduty : ∀ j, (p.modifyRecord id f).duty j = p.duty j ∨
      ∃ r, p.record? id = some r ∧ p.duty j = r.duty ∧ (p.modifyRecord id f).duty j = (f r).duty := by
    intro j
    unfold duty facet
    rw [record?_modifyRecord]
    by_cases h : id = j
    · subst h
      cases hr : p.record? id with
      | none => exact .inl (by simp)
      | some r => exact .inr ⟨r, rfl, rfl, by simp⟩
    · exact .inl (by rw [if_neg h])
  have hcases : ∀ {P : Duty → Duty → Prop} (j : RecordId), (∀ d, P d d) →
      (∀ r, p.record? id = some r → P r.duty (f r).duty) → P (p.duty j) ((p.modifyRecord id f).duty j) := by
    intro P j hsame hchange
    rcases hduty j with heq | ⟨r, hr, h₁, h₂⟩
    · rw [heq]
      exact hsame _
    · rw [h₁, h₂]
      exact hchange r hr
  exact ⟨fun j => hcases (P := fun d d' => d'.fragments = d.fragments) j (fun _ => rfl) fun r hr => (hf r hr).1,
    fun j => hcases (P := fun d d' => d.fulfilled = true → d'.fulfilled = true) j (fun _ h => h)
      fun r hr => (hf r hr).2.1,
    fun j => hcases (P := fun d d' => d.errors ⊆ d'.errors) j (fun _ => List.Subset.refl _) fun r hr => (hf r hr).2.2.1,
    fun j => hcases (P := fun d d' => d'.unfinished ⊆ d.unfinished) j (fun _ => List.Subset.refl _)
      fun r hr => (hf r hr).2.2.2.1,
    fun j => hcases (P := fun d d' => ∀ set ∈ d.unfinished, ¬ gone set → set ∈ d'.unfinished) j (fun _ _ h _ => h)
      fun r hr => (hf r hr).2.2.2.2,
    fun _ hid => .inl hid⟩

/-- A change that is none to what records wait for. -/
theorem modifyRecord_same (p : Publisher ω) (id : RecordId) {f : Record → Record}
    (hf : ∀ r, p.record? id = some r → (f r).duty = r.duty) : Eases gone done p (p.modifyRecord id f) :=
  of_duty (fun _ => facet_modifyRecord_at hf) fun _ hid => .inl hid

theorem of_same (h : p.Same q) : Eases gone done p q :=
  of_duty (fun id => facet_of_record? (h.record? id)) fun _ hid => .inl (h.released ▸ hid)

theorem push (p : Publisher ω) {r : Record} (hr : r.duty = {}) : Eases gone done p (p.push r).1 :=
  of_duty (fun _ => facet_push hr) fun _ hid => .inl hid

theorem addChild (p : Publisher ω) (parent child : RecordId) : Eases gone done p (p.addChild parent child) :=
  foldl _ (fun p _ _ => modifyRecord_same p _ fun r _ => by cases r <;> rfl) p

theorem modifyItems (p : Publisher ω) (id : RecordId) (f : ItemsRecord → ItemsRecord) :
    Eases gone done p (p.modifyItems id f) :=
  modifyRecord_same p _ fun r _ => by cases r <;> rfl

/-- A record is released that waits for nothing, or has errors. -/
theorem release (p : Publisher ω) (id : RecordId) (h : (p.duty id).errors ≠ [] ∨ done ∧ (p.duty id).unfinished = []) :
    Eases gone done p (p.release id) := by
  refine of_duty (fun j => facet_of_record? (record?_release p id j)) fun j hj => ?_
  have hduty : (p.release id).duty j = p.duty j := facet_of_record? (record?_release p id j)
  rw [hduty]
  unfold Publisher.release at hj
  split at hj
  · rcases mem_addNew.1 hj with hj | rfl
    · exact .inl hj
    · exact .inr h
  · exact .inl hj

theorem addError (p : Publisher ω) (id : RecordId) (e : Error) : Eases gone done p (p.addError id e) := by
  refine modifyRecord p id fun r _ => ?_
  cases r with
  | fragment r =>
    exact ⟨rfl, fun h => h, List.subset_append_left _ _, List.Subset.refl _, fun _ h _ => h⟩
  | _ => exact ⟨rfl, fun h => h, List.Subset.refl _, List.Subset.refl _, fun _ h _ => h⟩

theorem filter (p : Publisher ω) (path : Path) (id : RecordId) : Eases gone done p (p.filter path id).1 :=
  foldl _ (fun p _ _ => modifyRecord_same p _ fun r _ => by cases r <;> rfl) p

theorem finishFieldSet (p : Publisher ω) {set : RecordId} (fragment : RecordId) (hset : gone set) :
    Eases gone done p (p.finishFieldSet set fragment) := by
  refine modifyRecord p fragment fun r _ => ?_
  cases r with
  | fragment r =>
    refine ⟨rfl, fun h => h, List.Subset.refl _, fun _ h => List.mem_of_mem_filter h, fun other h hnot => ?_⟩
    exact List.mem_filter.2 ⟨h, by simpa using fun heq : other = set => hnot (heq ▸ hset)⟩
  | _ => exact ⟨rfl, fun h => h, List.Subset.refl _, List.Subset.refl _, fun _ h _ => h⟩

theorem completeFieldSet (p : Publisher ω) (set : RecordId) (data : Json) :
    Eases (· = set) True p (p.completeFieldSet set data) := by
  refine Eases.trans (modifyRecord p set fun r _ => ?_) (foldl _ (fun p fragment _ => ?_) _)
  · cases r with
    | fieldSet r => exact ⟨rfl, fun _ => rfl, List.Subset.refl _, List.Subset.refl _, fun _ h _ => h⟩
    | _ => exact ⟨rfl, fun h => h, List.Subset.refl _, List.Subset.refl _, fun _ h _ => h⟩
  · have hfinish : Eases (· = set) True p (p.finishFieldSet set fragment) := finishFieldSet p fragment rfl
    dsimp only
    split
    · rename_i r hr
      split
      · rename_i hnil
        refine hfinish.trans (release _ fragment (.inr ⟨trivial, ?_⟩))
        rw [duty_of_record? hr]
        exact List.isEmpty_iff.1 hnil
      · exact hfinish
    · exact hfinish

theorem failFieldSet (h : p.Linked) (set : RecordId) (e : Error) :
    Eases (· = set) False p (p.failFieldSet set e) := by
  have hfragments : ∀ f ∈ p.fragmentsOf set, p.IsFragment f := by
    intro f hf
    obtain ⟨r, hr, hmem⟩ := mem_fragmentsOf.1 hf
    exact (h.fragments set r hr f hmem).2
  -- as long as a fragment stays one, it has errors when it is released
  refine (List.foldlRecOn (motive := fun q => Eases (· = set) False p q ∧ ∀ f ∈ p.fragmentsOf set, q.IsFragment f)
    (p.fragmentsOf set) _ ⟨refl p, hfragments⟩ fun q ⟨hq, hthere⟩ fragment hfragment => ?_).1
  obtain ⟨r, hr⟩ := hthere fragment hfragment
  have hfinish : Eases (· = set) False q (q.finishFieldSet set fragment) := finishFieldSet q fragment rfl
  have herrors : ((q.finishFieldSet set fragment).modifyFragment fragment fun r =>
      { r with errors := r.errors ++ [e] }).record? fragment =
        some (.fragment { r with unfinished := r.unfinished.filter (· ≠ set), errors := r.errors ++ [e] }) := by
    unfold Publisher.finishFieldSet modifyFragment
    rw [record?_modifyRecord, if_pos rfl, record?_modifyRecord, if_pos rfl, hr]
    rfl
  refine ⟨(hq.trans hfinish).trans (Eases.trans (q := (q.finishFieldSet set fragment).modifyFragment fragment fun r =>
    { r with errors := r.errors ++ [e] }) (modifyRecord _ fragment fun r _ => ?_) (release _ fragment (.inl ?_))),
    fun f hf => ?_⟩
  · cases r with
    | fragment r => exact ⟨rfl, fun h => h, List.subset_append_left _ _, List.Subset.refl _, fun _ h _ => h⟩
    | _ => exact ⟨rfl, fun h => h, List.Subset.refl _, List.Subset.refl _, fun _ h _ => h⟩
  · rw [duty_of_record? herrors]
    simp [Record.duty]
  · obtain ⟨rf, hrf⟩ := hthere f hf
    by_cases heq : fragment = f
    · subst heq
      exact ⟨_, (record?_release _ _ _).trans herrors⟩
    · refine ⟨rf, (record?_release _ _ _).trans ?_⟩
      unfold Publisher.finishFieldSet modifyFragment
      rw [record?_modifyRecord, if_neg heq, record?_modifyRecord, if_neg heq]
      exact hrf

end Eases

/-! ### What is owed -/

/-- The fragments of a set that is open wait for it, and each set has its data, or each of its fragments waits for it or has
failed. -/
structure Owes (p : Publisher ω) (opened : List RecordId) : Prop where
  running : ∀ set ∈ opened, ∀ f ∈ (p.duty set).fragments, set ∈ (p.duty f).unfinished
  done : ∀ set, (p.duty set).fulfilled = true ∨
    ∀ f ∈ (p.duty set).fragments, (p.duty f).errors ≠ [] ∨ set ∈ (p.duty f).unfinished

theorem Owes.eases {opened opened' : List RecordId} (h : p.Owes opened) (he : Eases gone done p q)
    (hopened : ∀ set ∈ opened', (p.duty set).fragments = [] ∨ set ∈ opened ∧ ¬ gone set)
    (hgone : ∀ set, gone set → (q.duty set).fulfilled = true ∨ ∀ f ∈ (q.duty set).fragments, (q.duty f).errors ≠ []) :
    q.Owes opened' := by
  refine ⟨fun set hset f hf => ?_, fun set => ?_⟩
  · rw [he.fragments] at hf
    rcases hopened set hset with hnil | ⟨hset, hnot⟩
    · rw [hnil] at hf
      exact absurd hf (by simp)
    · exact he.kept f set (h.running set hset f hf) hnot
  · by_cases hset : gone set
    · exact (hgone set hset).imp_right fun hall f hf => .inl (hall f hf)
    · refine (h.done set).imp (he.fulfilled set) fun hall f hf => ?_
      rw [he.fragments] at hf
      refine (hall f hf).imp (fun hne hnil => hne ?_) fun hmem => he.kept f set hmem hset
      exact List.subset_nil.1 (hnil ▸ he.errors f)

/-- What is released waits for nothing or has errors. -/
def Whole (p : Publisher ω) : Prop := ∀ id ∈ p.released, (p.duty id).unfinished = [] ∨ (p.duty id).errors ≠ []

theorem Whole.eases (h : p.Whole) (he : Eases gone done p q) : q.Whole := by
  intro id hid
  rcases he.released id hid with hid | herrors | ⟨-, hnil⟩
  · rcases h id hid with hnil | hne
    · exact .inl (List.subset_nil.1 (hnil ▸ he.sub id))
    · exact .inr fun hnil => hne (List.subset_nil.1 (hnil ▸ he.errors id))
  · exact .inr herrors
  · exact .inl hnil

/-- All sets of a released fragment without errors have their data. -/
theorem Owes.fulfilled {opened : List RecordId} (h : p.Owes opened) (hw : p.Whole) {fragment set : RecordId}
    (hreleased : fragment ∈ p.released) (herrors : (p.duty fragment).errors = []) (hset : p.BelongsTo set fragment) :
    (p.duty set).fulfilled = true := by
  rcases h.done set with hdone | hall
  · exact hdone
  · rcases hall fragment (mem_fragments_duty.2 hset) with hne | hmem
    · exact absurd herrors hne
    · rcases hw fragment hreleased with hnil | hne
      · rw [hnil] at hmem
        exact absurd hmem (by simp)
      · exact absurd herrors hne

/-! ### New sets of fields -/

/-- A new set of fields is owed by its fragments. -/
theorem duty_addFieldSet (path : Path) {fragments : List RecordId} (hfragments : ∀ f ∈ fragments, p.IsFragment f)
    (j : RecordId) : (p.addFieldSet path fragments).1.duty j =
      if j ∈ fragments then { p.duty j with unfinished := addNew (p.duty j).unfinished ⟨p.records.size⟩ }
      else if j = ⟨p.records.size⟩ then { fragments := fragments } else p.duty j := by
  have hlt : ∀ f ∈ fragments, f ≠ ⟨p.records.size⟩ := by
    rintro f hf rfl
    obtain ⟨r, hr⟩ := hfragments _ hf
    exact Nat.lt_irrefl _ (lt_size_of_record? hr)
  unfold addFieldSet duty facet modifyFragment
  dsimp only
  rw [record?_foldl_modify]
  · rw [record?_push]
    split
    · rename_i hj
      obtain ⟨r, hr⟩ := hfragments j hj
      rw [if_neg (hlt j hj), hr]
      rfl
    · split
      · rfl
      · rfl
  · intro r
    cases r with
    | fragment r => simp only [addNew_addNew]
    | _ => rfl

section FieldSet

variable {path : Path} {fragments : List RecordId} (hfragments : ∀ f ∈ fragments, p.IsFragment f)
include hfragments

/-- A new set of fields is open. -/
theorem Owes.addFieldSet {opened : List RecordId} (h : p.Owes opened) (hl : p.Linked) :
    (p.addFieldSet path fragments).1.Owes (⟨p.records.size⟩ :: opened) := by
  have hold : ∀ {set f : RecordId}, f ∈ (p.duty set).fragments → f ≠ ⟨p.records.size⟩ := by
    rintro set f hf rfl
    obtain ⟨r, hr, hmem⟩ := mem_fragments_duty.1 hf
    obtain ⟨r', hr'⟩ := (hl.fragments set r hr _ hmem).2
    exact Nat.lt_irrefl _ (lt_size_of_record? hr')
  have hnew : (⟨p.records.size⟩ : RecordId) ∉ fragments := by
    intro hmem
    obtain ⟨r, hr⟩ := hfragments _ hmem
    exact Nat.lt_irrefl _ (lt_size_of_record? hr)
  -- a set that a fragment waits for, and its errors, stay
  have hkept : ∀ {f set : RecordId}, f ≠ ⟨p.records.size⟩ →
      ((p.addFieldSet path fragments).1.duty f).errors = (p.duty f).errors ∧
      (set ∈ (p.duty f).unfinished → set ∈ ((p.addFieldSet path fragments).1.duty f).unfinished) := by
    intro f set hne
    rw [duty_addFieldSet path hfragments]
    split
    · exact ⟨rfl, fun hmem => mem_addNew.2 (.inl hmem)⟩
    · exact ⟨rfl, fun hmem => hmem⟩
  have hset : ∀ set, set ≠ ⟨p.records.size⟩ →
      ((p.addFieldSet path fragments).1.duty set).fragments = (p.duty set).fragments ∧
      ((p.addFieldSet path fragments).1.duty set).fulfilled = (p.duty set).fulfilled := by
    intro set hne
    rw [duty_addFieldSet path hfragments]
    split
    · exact ⟨rfl, rfl⟩
    · exact ⟨rfl, rfl⟩
  have hown : ((p.addFieldSet path fragments).1.duty ⟨p.records.size⟩).fragments = fragments ∧
      ∀ f ∈ fragments, (⟨p.records.size⟩ : RecordId) ∈ ((p.addFieldSet path fragments).1.duty f).unfinished := by
    refine ⟨?_, fun f hf => ?_⟩
    · rw [duty_addFieldSet path hfragments, if_neg hnew, if_pos rfl]
    · rw [duty_addFieldSet path hfragments, if_pos hf]
      exact mem_addNew.2 (.inr rfl)
  refine ⟨fun set hopen f hf => ?_, fun set => ?_⟩
  · by_cases hne : set = ⟨p.records.size⟩
    · subst hne
      rw [hown.1] at hf
      exact hown.2 f hf
    · rw [(hset set hne).1] at hf
      have hopen := (List.mem_cons.1 hopen).resolve_left hne
      exact (hkept (hold hf)).2 (h.running set hopen f hf)
  · by_cases hne : set = ⟨p.records.size⟩
    · subst hne
      rw [hown.1]
      exact .inr fun f hf => .inr (hown.2 f hf)
    · rw [(hset set hne).1, (hset set hne).2]
      refine (h.done set).imp_right fun hall f hf => ?_
      rw [(@hkept f set (hold hf)).1]
      exact (hall f hf).imp_right (hkept (hold hf)).2

/-- A new set of fields does not belong to a released fragment, or that one has errors. -/
theorem Whole.addFieldSet (h : p.Whole) (hfailed : ∀ f ∈ fragments, f ∈ p.released → (p.duty f).errors ≠ [])
    (hreleased : (⟨p.records.size⟩ : RecordId) ∉ p.released) : (p.addFieldSet path fragments).1.Whole := by
  have hsame : (p.addFieldSet path fragments).1.released = p.released :=
    List.foldlRecOn (motive := fun q : Publisher ω => q.released = p.released) fragments _ rfl fun _ hq _ _ => hq
  intro id hid
  rw [hsame] at hid
  rw [duty_addFieldSet path hfragments]
  split
  · rename_i hmem
    exact .inr (hfailed id hmem hid)
  · rw [if_neg (by rintro rfl; exact hreleased hid)]
    exact h id hid

end FieldSet

/-! ### Looks and the answer -/

/-- With the publishing of children, only what is ready is released. -/
theorem Eases.publishChildren (p : Publisher ω) (id : RecordId) : Eases gone True p (p.publishChildren id) := by
  refine foldl _ (fun p child _ => ?_) p
  unfold publish
  dsimp only
  split
  · rename_i hready
    refine of_duty (fun j => facet_of_record? rfl) fun j hj => ?_
    rcases mem_addNew.1 hj with hj | rfl
    · exact .inl hj
    · right
      show (p.duty j).errors ≠ [] ∨ True ∧ (p.duty j).unfinished = []
      split at hready
      · rename_i r hr
        rw [duty_of_record? hr]
        exact .inr ⟨trivial, rfl⟩
      · rename_i r hr
        rw [duty_of_record? hr]
        rcases Bool.or_eq_true_iff.1 (Option.some.inj hready) with hnil | hne
        · exact .inr ⟨trivial, List.isEmpty_iff.1 hnil⟩
        · refine .inl fun hnil => ?_
          rw [show r.errors = [] from hnil] at hne
          exact absurd hne (by simp)
      · exact absurd hready (by simp)
  · exact of_duty (fun j => facet_of_record? rfl) fun _ hj => .inl hj
  · exact refl p

/-- The answer makes children of the initial result pending, and takes its errors. -/
theorem Eases.answer (p : Publisher ω) : Eases gone True p (p.publishChildren .initial).takeErrors.1 :=
  (Eases.publishChildren p .initial).trans (modifyRecord_same _ _ fun r _ => by cases r <;> rfl)

/-- What is delivered is taken out of its records. -/
theorem Eases.deliver (p : Publisher ω) (id : RecordId) : Eases gone True p (p.deliver id).1 := by
  have hsend : ∀ (label : Option String) (state : Publisher ω × List IncrementalEntry) (set : RecordId),
      Eases gone True state.1 (sendFieldSet label state set).1 := by
    intro label ⟨p, entries⟩ set
    unfold sendFieldSet
    dsimp only
    split
    · rename_i r hr
      split
      · exact refl p
      · refine modifyRecord p set fun r' hr' => ?_
        rw [hr] at hr'
        cases hr'
        exact ⟨rfl, fun _ => rfl, List.Subset.refl _, List.Subset.refl _, fun _ hmem _ => hmem⟩
    · exact refl p
  unfold Publisher.deliver
  split
  · dsimp only
    split
    · exact refl p
    · exact modifyItems p id _
  · dsimp only
    split
    · exact refl p
    · rename_i r _ _
      exact List.foldlRecOn (motive := fun state : Publisher ω × List IncrementalEntry => Eases gone True p state.1)
        (b := (p, [])) r.fieldSets _ (refl p)
        fun state hstate set _ => hstate.trans (hsend r.label state set)
  · exact refl p

/-- A look only eases what is owed, and what is released after it waits for nothing or has errors. -/
theorem Owes.look {opened : List RecordId} (h : p.Owes opened) (hw : p.Whole) :
    p.nextResult?.1.Owes opened ∧ p.nextResult?.1.Whole := by
  unfold Publisher.nextResult?
  split
  · exact ⟨h, hw⟩
  · have heases : Eases (fun _ => False) True { p with released := [], pending := p.pending.filter (· ∉ p.released) }
        (p.released.foldl deliverNext
          ({ p with released := [], pending := p.pending.filter (· ∉ p.released) }, [], [])).1 :=
      List.foldlRecOn (motive := fun state : Publisher ω × List IncrementalEntry × List CompletedEntry =>
        Eases (fun _ => False) True { p with released := [], pending := p.pending.filter (· ∉ p.released) } state.1)
        p.released _ (Eases.refl _) fun state hstate id _ =>
          hstate.trans ((Eases.publishChildren state.1 id).trans (Eases.deliver _ id))
    have howes : Owes { p with released := [], pending := p.pending.filter (· ∉ p.released) } opened :=
      ⟨h.running, h.done⟩
    have hboth := And.intro (howes.eases heases (fun set hset => .inr ⟨hset, id⟩) fun _ hgone => hgone.elim)
      (Whole.eases (p := { p with released := [], pending := p.pending.filter (· ∉ p.released) })
        (fun id hid => absurd hid (by simp)) heases)
    unfold processReleased
    dsimp only
    split <;> exact hboth

end Publisher

end GraphQL
