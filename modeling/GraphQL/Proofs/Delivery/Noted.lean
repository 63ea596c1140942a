import GraphQL.Proofs.Delivery.Contents

/-!
# Errors that records deliver

The errors that were noted at a record are delivered with its data.  Only noting an error adds to them, and only a look
that sends the record takes them away; everything else leaves them as they are.
-/

namespace GraphQL

/-- The errors that are delivered with the data of a record. -/
def Record.noted : Record → List Error
  | initial r => r.errors
  | fieldSet r => r.errors
  | items r => r.errors
  | fragment _ => []

theorem Record.noted_emptied_subset (r : Record) : r.emptied.noted ⊆ r.noted := by
  cases r <;> simp [noted, emptied]

namespace Publisher

variable {ω : Type} {p q : Publisher ω} {id j : RecordId}

/-- The errors that are delivered with the data of a record. -/
def noted (p : Publisher ω) (id : RecordId) : List Error := p.facet Record.noted [] id

theorem noted_of_record? {r : Record} (h : p.record? id = some r) : p.noted id = r.noted := by
  unfold noted facet
  rw [h]
  rfl

theorem noted_same (h : p.Same q) (j : RecordId) : q.noted j = p.noted j := facet_of_record? (h.record? j)

theorem noted_addChild (p : Publisher ω) (parent child j : RecordId) : (p.addChild parent child).noted j = p.noted j :=
  facet_foldl (fun _ _ => facet_modifyRecord fun r => by cases r <;> rfl) _

theorem noted_addFragment (p : Publisher ω) (path : Path) (label : Option String) (parent j : RecordId) :
    (p.addFragment path label parent).1.noted j = p.noted j :=
  (noted_addChild _ _ _ _).trans (facet_push rfl)

theorem noted_addFieldSet (p : Publisher ω) (path : Path) (fragments : List RecordId) (j : RecordId) :
    (p.addFieldSet path fragments).1.noted j = p.noted j :=
  (facet_foldl (fun _ _ => facet_modifyRecord fun r => by cases r <;> rfl) _).trans (facet_push rfl)

theorem noted_addItems (p : Publisher ω) (stream : StreamId) (path : Path) (parent j : RecordId) :
    (p.addItems stream path parent).1.noted j = p.noted j :=
  (noted_addChild _ _ _ _).trans (facet_push rfl)

theorem noted_filter (p : Publisher ω) (path : Path) (id j : RecordId) : (p.filter path id).1.noted j = p.noted j :=
  facet_foldl (fun _ _ => facet_modifyRecord fun r => by cases r <;> rfl) _

theorem noted_release (p : Publisher ω) (id j : RecordId) : (p.release id).noted j = p.noted j :=
  facet_of_record? (record?_release p id j)

theorem noted_finishFieldSet (p : Publisher ω) (set fragment j : RecordId) :
    (p.finishFieldSet set fragment).noted j = p.noted j :=
  facet_modifyRecord fun r => by cases r <;> rfl

theorem noted_completeFieldSet (p : Publisher ω) (id : RecordId) (data : Json) (j : RecordId) :
    (p.completeFieldSet id data).noted j = p.noted j := by
  refine (facet_foldl (fun q fragment => ?_) _).trans (facet_modifyRecord fun r => by cases r <;> rfl)
  have hfinish := noted_finishFieldSet q id fragment j
  dsimp only
  split
  · split
    · exact (noted_release _ fragment j).trans hfinish
    · exact hfinish
  · exact hfinish

theorem noted_failFieldSet (p : Publisher ω) (set : RecordId) (e : Error) (j : RecordId) :
    (p.failFieldSet set e).noted j = p.noted j :=
  facet_foldl (fun p fragment => (noted_release _ fragment j).trans
    ((facet_modifyRecord fun r => by cases r <;> rfl).trans (noted_finishFieldSet p set fragment j))) _

/-- Items are changed, but not the errors of their record. -/
theorem noted_modifyItems (p : Publisher ω) (id : RecordId) {f : ItemsRecord → ItemsRecord}
    (hf : ∀ r, (f r).errors = r.errors) (j : RecordId) : (p.modifyItems id f).noted j = p.noted j :=
  facet_modifyRecord fun r => by
    cases r with
    | items r => exact hf r
    | _ => rfl

theorem noted_setFinal (p : Publisher ω) (id j : RecordId) : (p.setFinal id).noted j = p.noted j :=
  noted_modifyItems p id (by intro r; rfl) j

theorem noted_completeItems (p : Publisher ω) (id : RecordId) (items : List Json) (j : RecordId) :
    (p.completeItems id items).noted j = p.noted j :=
  (noted_release _ _ _).trans (noted_modifyItems p id (by intro r; rfl) j)

theorem noted_endItems (p : Publisher ω) (id j : RecordId) :
    ((p.setEnd id).completeItems id []).noted j = p.noted j :=
  (noted_completeItems _ _ _ _).trans (noted_modifyItems p id (by intro r; rfl) j)

theorem noted_retireItems (p : Publisher ω) (id j : RecordId) : (p.retireItems id).noted j = p.noted j :=
  (noted_release _ _ _).trans (noted_modifyItems p id (by intro r; rfl) j)

theorem noted_failItems (p : Publisher ω) (id : RecordId) (e : Error) (j : RecordId) :
    (p.failItems id e).1.noted j = p.noted j := by
  unfold failItems
  split
  · refine (noted_release _ id j).trans (Eq.trans ?_ (noted_modifyItems p id
      (f := fun r => { r with final := true, completed := true }) (fun _ => rfl) j))
    exact facet_of_record? rfl
  · rfl

/-- An error is noted at a record that delivers data. -/
theorem noted_addError (hid : ∃ r, p.record? id = some r ∧ ∀ f, r ≠ .fragment f) (e : Error) (j : RecordId) :
    (p.addError id e).noted j = if j = id then p.noted id ++ [e] else p.noted j := by
  obtain ⟨r, hr, hnot⟩ := hid
  unfold noted facet addError
  rw [record?_modifyRecord]
  by_cases heq : j = id
  · subst heq
    rw [if_pos rfl, if_pos rfl, hr]
    cases r with
    | fragment f => exact absurd rfl (hnot f)
    | _ => rfl
  · rw [if_neg (Ne.symm heq), if_neg heq]

theorem noted_publishChildren (p : Publisher ω) (id j : RecordId) : (p.publishChildren id).noted j = p.noted j := by
  refine facet_of_record? ?_
  unfold record?
  rw [(records_publishChildren p id).1]

/-- The answer takes the errors of the initial result, and no others. -/
theorem noted_takeErrors (p : Publisher ω) (j : RecordId) :
    p.takeErrors.1.noted j ⊆ p.noted j ∧ ((∀ r, p.record? j ≠ some (.initial r)) → p.takeErrors.1.noted j = p.noted j) := by
  unfold takeErrors noted facet
  dsimp only
  rw [record?_modifyRecord]
  split
  · rename_i heq
    subst heq
    cases hr : p.record? .initial with
    | none => exact ⟨List.Subset.refl _, fun _ => rfl⟩
    | some r =>
      cases r with
      | initial r => exact ⟨List.nil_subset _, fun h => absurd rfl (h r)⟩
      | _ => exact ⟨List.Subset.refl _, fun _ => rfl⟩
  · exact ⟨List.Subset.refl _, fun _ => rfl⟩

/-- The errors of the answer are those that were noted at the initial record. -/
theorem errors_takeErrors {r : InitialRecord} (h : p.record? .initial = some (.initial r)) :
    p.takeErrors.2 = p.noted .initial := by
  rw [noted_of_record? h]
  unfold takeErrors
  rw [h]
  rfl

/-- A look takes the errors of what it sends, and no others. -/
theorem Sound.noted_nextResult? (h : p.Sound) (honce : p.ListsOnce) (j : RecordId) :
    (j ∉ p.sent.map Prod.fst → p.nextResult?.1.noted j = p.noted j) ∧ p.nextResult?.1.noted j ⊆ p.noted j := by
  unfold noted facet
  rw [h.record?_nextResult? honce]
  refine ⟨fun hsent => by rw [if_neg hsent], ?_⟩
  split
  · cases p.record? j with
    | none => exact List.Subset.refl _
    | some r => exact r.noted_emptied_subset
  · exact List.Subset.refl _

end Publisher

end GraphQL
