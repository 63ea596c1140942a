import GraphQL.Proofs.Delivery.Updates

/-!
# Work does not deliver

What is pending is settled by results alone: the operations that running work uses leave the pending records as they
are, and what is released stays released (`Publisher.Retains`).
-/

namespace GraphQL

namespace Publisher

/-- The same records are pending, and what was released still is. -/
structure Retains {ω : Type} (p q : Publisher ω) : Prop where
  pending : q.pending = p.pending
  released : p.released ⊆ q.released

namespace Retains

variable {ω : Type} {p q u : Publisher ω}

theorem refl (p : Publisher ω) : p.Retains p := ⟨rfl, List.Subset.refl _⟩

theorem trans (h : p.Retains q) (h' : q.Retains u) : p.Retains u :=
  ⟨h'.pending.trans h.pending, List.Subset.trans h.released h'.released⟩

theorem of_same (h : p.Same q) : p.Retains q := ⟨h.pending, fun _ hid => h.released ▸ hid⟩

theorem modifyRecord (p : Publisher ω) (id : RecordId) (f : Record → Record) : p.Retains (p.modifyRecord id f) :=
  ⟨rfl, List.Subset.refl _⟩

theorem push (p : Publisher ω) (r : Record) : p.Retains (p.push r).1 := ⟨rfl, List.Subset.refl _⟩

theorem addStream (p : Publisher ω) (path : Path) (label : Option String) (hook : Option HookId) :
    p.Retains (p.addStream path label hook).1 := ⟨rfl, List.Subset.refl _⟩

theorem foldl {α : Type} {f : Publisher ω → α → Publisher ω} (hf : ∀ (p : Publisher ω) a, p.Retains (f p a))
    (xs : List α) (p : Publisher ω) : p.Retains (xs.foldl f p) := by
  induction xs generalizing p with
  | nil => exact refl p
  | cons x rest ih => exact (hf p x).trans (ih (f p x))

theorem release (p : Publisher ω) (id : RecordId) : p.Retains (p.release id) := by
  unfold Publisher.release
  split
  · exact ⟨rfl, fun _ hid => mem_addNew.2 (Or.inl hid)⟩
  · exact refl p

theorem addChild (p : Publisher ω) (parent child : RecordId) : p.Retains (p.addChild parent child) :=
  foldl (fun p id => modifyRecord p id _) _ p

theorem addFragment (p : Publisher ω) (path : Path) (label : Option String) (parent : RecordId) :
    p.Retains (p.addFragment path label parent).1 :=
  (push p _).trans (addChild _ parent _)

theorem addFieldSet (p : Publisher ω) (path : Path) (fragments : List RecordId) :
    p.Retains (p.addFieldSet path fragments).1 :=
  (push p _).trans (foldl (fun p id => modifyRecord p id _) fragments _)

theorem addItems (p : Publisher ω) (stream : StreamId) (path : Path) (parent : RecordId) :
    p.Retains (p.addItems stream path parent).1 :=
  (push p _).trans (addChild _ parent _)

theorem completeFieldSet (p : Publisher ω) (id : RecordId) (data : Json) : p.Retains (p.completeFieldSet id data) := by
  refine (modifyRecord p id _).trans (foldl (fun p fragment => ?_) _ _)
  have hfinish : p.Retains (p.finishFieldSet id fragment) := modifyRecord p fragment _
  refine hfinish.trans ?_
  dsimp only
  split
  · split
    · exact release _ fragment
    · exact refl _
  · exact refl _

theorem failFieldSet (p : Publisher ω) (id : RecordId) (e : Error) : p.Retains (p.failFieldSet id e) :=
  foldl (fun p fragment => ((modifyRecord p fragment _).trans (modifyRecord _ fragment _)).trans (release _ fragment))
    _ p

theorem completeItems (p : Publisher ω) (id : RecordId) (items : List Json) : p.Retains (p.completeItems id items) :=
  (modifyRecord p id _).trans (release _ id)

theorem retireItems (p : Publisher ω) (id : RecordId) : p.Retains (p.retireItems id) :=
  (modifyRecord p id _).trans (release _ id)

theorem failItems (p : Publisher ω) (id : RecordId) (e : Error) : p.Retains (p.failItems id e).1 := by
  unfold Publisher.failItems
  split
  · refine Retains.trans ?_ (release _ id)
    exact ⟨rfl, List.Subset.refl _⟩
  · exact refl p

theorem filter (p : Publisher ω) (path : Path) (id : RecordId) : p.Retains (p.filter path id).1 :=
  foldl (fun p id => modifyRecord p id _) _ p

end Retains

end Publisher

end GraphQL
