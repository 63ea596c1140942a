import Mathlib.Algebra.GroupWithZero.Nat
import GraphQL.Proofs.Delivery.Lookup

/-!
# The records below others

`Publisher.descendants` goes through the children of records, their children and so on, and meets each record once.  It
goes on until nothing is left: what it finds are the given records and all that are below them (`mem_descendants`).
-/

namespace GraphQL

namespace Publisher

variable {ω : Type} {p : Publisher ω}

/-- The children of a record, if it is there. -/
def kids (p : Publisher ω) (id : RecordId) : List RecordId := ((p.record? id).map Record.children).getD []

/-- A record is below another one if it is that record, or the child of a record below it. -/
inductive Below (p : Publisher ω) (root : RecordId) : RecordId → Prop
  | self : Below p root root
  | child {id child : RecordId} (h : Below p root id) (hchild : child ∈ p.kids id) : Below p root child

theorem Below.trans {a b id : RecordId} (h : p.Below a b) (h' : p.Below b id) : p.Below a id := by
  induction h' with
  | self => exact h
  | child _ hchild ih => exact ih.child hchild

/-- How many children the records have that were not met. -/
private def weight (p : Publisher ω) (met : List RecordId) (ids : List RecordId) : Nat :=
  (ids.map fun id => if id ∈ met then 0 else (p.kids id).length).sum

private theorem weight_concat (met ids : List RecordId) {id : RecordId} (hid : id ∉ met) :
    p.weight (met ++ [id]) ids + (if id ∈ ids then (p.kids id).length else 0) ≤ p.weight met ids := by
  unfold weight
  induction ids with
  | nil => simp
  | cons j rest ih =>
    simp only [List.map_cons, List.sum_cons, List.mem_cons, List.mem_append, List.not_mem_nil, or_false] at ih ⊢
    by_cases hj : id = j
    · subst hj
      simp only [hid, or_true, true_or, if_true, if_false]
      split at ih <;> omega
    · have hj' : ¬ j = id := fun h => hj h.symm
      simp only [hj, hj', or_false, false_or]
      split <;> omega

/-- Only records that are there have children. -/
private theorem kids_of_size_le {id : RecordId} (h : p.records.size ≤ id.index) : p.kids id = [] := by
  unfold kids
  rw [record?_eq_none.2 h]
  rfl

/-- With enough fuel, everything on the stack is met, and so are the children of what is met on the way. -/
private theorem collectBelow_closed (fuel : Nat) (met stack : List RecordId)
    (hfuel : stack.length + p.weight met ((List.range p.records.size).map RecordId.mk) < fuel) :
    met ⊆ p.collectBelow fuel met stack ∧ stack ⊆ p.collectBelow fuel met stack ∧
      ∀ id ∈ p.collectBelow fuel met stack, id ∉ met → p.kids id ⊆ p.collectBelow fuel met stack := by
  induction fuel generalizing met stack with
  | zero => exact absurd hfuel (Nat.not_lt_zero _)
  | succ fuel ih =>
    cases stack with
    | nil =>
      unfold collectBelow
      exact ⟨List.Subset.refl _, List.nil_subset _, fun id hid hnot => absurd hid hnot⟩
    | cons id stack =>
      unfold collectBelow
      rw [List.length_cons] at hfuel
      split
      · rename_i hmet
        obtain ⟨hsub, hstack, hclosed⟩ := ih met stack (by omega)
        exact ⟨hsub, List.cons_subset.2 ⟨hsub hmet, hstack⟩, hclosed⟩
      · rename_i hmet
        have hweight := weight_concat (p := p) met ((List.range p.records.size).map RecordId.mk) hmet
        have hkids : (p.kids id).length ≤
            if id ∈ (List.range p.records.size).map RecordId.mk then (p.kids id).length else 0 := by
          split
          · exact Nat.le_refl _
          · rename_i hnot
            have hge : p.records.size ≤ id.index := by
              by_contra hlt
              exact hnot (List.mem_map.2 ⟨id.index, List.mem_range.2 (by omega), rfl⟩)
            rw [kids_of_size_le hge]
            exact Nat.le_refl _
        obtain ⟨hsub, hstack, hclosed⟩ := ih (met ++ [id]) (p.kids id ++ stack)
          (by rw [List.length_append]; omega)
        have hid := hsub (List.mem_append_right _ (List.mem_singleton_self id))
        refine ⟨fun j hj => hsub (List.mem_append_left _ hj), List.cons_subset.2 ⟨hid, fun j hj =>
          hstack (List.mem_append_right _ hj)⟩, fun j hj hnot => ?_⟩
        by_cases heq : j = id
        · subst heq
          exact fun k hk => hstack (List.mem_append_left _ hk)
        · exact hclosed j hj (by simp [hnot, heq])

/-- Nothing else is met. -/
private theorem below_of_mem_collectBelow (fuel : Nat) (met stack : List RecordId) {id : RecordId}
    (h : id ∈ p.collectBelow fuel met stack) : id ∈ met ∨ ∃ root ∈ stack, p.Below root id := by
  induction fuel generalizing met stack with
  | zero => exact Or.inl h
  | succ fuel ih =>
    cases stack with
    | nil => exact Or.inl h
    | cons top stack =>
      unfold collectBelow at h
      split at h
      · rcases ih met stack h with hmet | ⟨root, hroot, hbelow⟩
        · exact Or.inl hmet
        · exact Or.inr ⟨root, List.mem_cons_of_mem _ hroot, hbelow⟩
      · rcases ih (met ++ [top]) (p.kids top ++ stack) h with hmet | ⟨root, hroot, hbelow⟩
        · rcases List.mem_append.1 hmet with hmet | htop
          · exact Or.inl hmet
          · rw [List.mem_singleton.1 htop]
            exact Or.inr ⟨top, List.mem_cons_self, .self⟩
        · rcases List.mem_append.1 hroot with hroot | hroot
          · exact Or.inr ⟨top, List.mem_cons_self, (Below.child .self hroot).trans hbelow⟩
          · exact Or.inr ⟨root, List.mem_cons_of_mem _ hroot, hbelow⟩

/-- The links are counted with the children of all records. -/
private theorem weight_nil : p.weight [] ((List.range p.records.size).map RecordId.mk) = p.linkCount := by
  unfold weight linkCount
  rw [List.length_flatMap, List.map_map]
  congr 1
  refine List.ext_getElem (by simp) fun i hi hi' => ?_
  have hlt : i < p.records.size := by simpa using hi
  simp [kids, record?, hlt]

/-- The descendants of some records are all records below one of them. -/
theorem mem_descendants {roots : List RecordId} {id : RecordId} :
    id ∈ p.descendants roots ↔ ∃ root ∈ roots, p.Below root id := by
  have hfuel : roots.length + p.weight [] ((List.range p.records.size).map RecordId.mk) <
      roots.length + p.linkCount + 1 := by
    rw [weight_nil]
    omega
  obtain ⟨-, hroots, hclosed⟩ := collectBelow_closed _ [] roots hfuel
  constructor
  · intro h
    rcases below_of_mem_collectBelow _ [] roots h with hnil | hbelow
    · exact absurd hnil (by simp)
    · exact hbelow
  · rintro ⟨root, hroot, hbelow⟩
    induction hbelow with
    | self => exact hroots hroot
    | child _ hchild ih => exact hclosed _ ih (by simp) hchild

end Publisher

end GraphQL
