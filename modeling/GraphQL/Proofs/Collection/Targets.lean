import GraphQL.Collection.Collector
import Mathlib.Tactic.Common

/-!
# Targets of collected fields

Collection meets fields in the targets that it starts with and in new uses of `@defer`, which are numbered one after the
other, each inside a target that was there before it.  Masking puts a key into the set of those of its targets that have
none of the others around them: the initial result alone if it is one of them, and otherwise each use that stands
directly in the initial result.
-/

namespace GraphQL

/-- The targets in which the fields of a group were met. -/
def FieldGroup.reached (group : FieldGroup) : List Target := group.fields.map FieldDetails.target

/-- The numbers of a collector come after those of the uses of `@defer` in which a group was met. -/
def FieldGroup.Precedes (group : FieldGroup) (collector : Collector) : Prop :=
  0 < collector.nextUsage ∧ ∀ usage, .deferred usage ∈ group.reached → usage.id < collector.nextUsage

/-! ### Walks -/

/-- The uses of `@defer` are numbered from `first` on, and each stands in a target that was reached before it. -/
structure UsagesFrom (first : Nat) (reached : List Target) (usages : List DeferUsage) : Prop where
  numbered : ∀ (i : Nat) u, usages[i]? = some u → u.id = first + i
  around : ∀ (i : Nat) u, usages[i]? = some u → ∃ t, u.ancestors = t.id :: t.ancestors ∧
    (t ∈ reached ∨ ∃ (j : Nat) (v : DeferUsage), j < i ∧ usages[j]? = some v ∧ t = .deferred v)

/-- Each use of `@defer` stands in a target that was reached before it, and has a number of its own. -/
def Chained : (reached : List Target) → List DeferUsage → Prop
  | _, [] => True
  | reached, u :: rest => (∃ t ∈ reached, u.ancestors = t.id :: t.ancestors) ∧ u.id ≠ 0 ∧
      (∀ v, .deferred v ∈ reached → v.id ≠ u.id) ∧ Chained (reached ++ [.deferred u]) rest

theorem UsagesFrom.chained {first : Nat} {reached : List Target} {usages : List DeferUsage}
    (h : UsagesFrom first reached usages) (hfirst : 0 < first) (hreached : ∀ v, .deferred v ∈ reached → v.id < first) :
    Chained reached usages := by
  -- by induction on the uses that are left
  have hrest : ∀ rest before, usages = before ++ rest → Chained (reached ++ before.map .deferred) rest := by
    intro rest
    induction rest with
    | nil => exact fun _ _ => trivial
    | cons u rest ih =>
      intro before husages
      have hu : usages[before.length]? = some u := by
        rw [husages, List.getElem?_append_right (Nat.le_refl _), Nat.sub_self]
        rfl
      have hbefore : ∀ (j : Nat) v, usages[j]? = some v → j < before.length → v ∈ before := by
        intro j v hv hlt
        rw [husages, List.getElem?_append_left hlt] at hv
        exact List.mem_of_getElem? hv
      refine ⟨?_, ?_, fun v hv => ?_, ?_⟩
      · obtain ⟨t, hancestors, ht⟩ := h.around _ u hu
        refine ⟨t, List.mem_append.2 (ht.imp_right fun ⟨j, v, hlt, hv, heq⟩ => ?_), hancestors⟩
        exact List.mem_map.2 ⟨v, hbefore j v hv hlt, heq.symm⟩
      · rw [h.numbered _ u hu]
        omega
      · rw [h.numbered _ u hu]
        rcases List.mem_append.1 hv with hv | hv
        · have := hreached v hv
          omega
        · obtain ⟨w, hw, heq⟩ := List.mem_map.1 hv
          cases heq
          obtain ⟨j, hj⟩ := List.mem_iff_getElem?.1 hw
          have hlt := (List.getElem?_eq_some_iff.1 hj).1
          have hv' : usages[j]? = some v := by
            rw [husages, List.getElem?_append_left hlt]
            exact hj
          rw [h.numbered j v hv']
          omega
      · have hnext := ih (before ++ [u]) (by rw [husages, List.append_assoc]; rfl)
        rw [List.map_append, ← List.append_assoc] at hnext
        exact hnext
  have hall := hrest usages [] rfl
  rw [List.map_nil, List.append_nil] at hall
  exact hall

/-- The target is one of those that were reached before, or a new use of `@defer`. -/
def Reaches (reached : List Target) (usages : List DeferUsage) (t : Target) : Prop :=
  t ∈ reached ∨ ∃ u ∈ usages, t = .deferred u

theorem Reaches.mono {reached : List Target} {usages usages' : List DeferUsage} {t : Target}
    (h : Reaches reached usages t) (hle : usages <+: usages') : Reaches reached usages' t :=
  h.imp_right fun ⟨u, hu, heq⟩ => ⟨u, hle.subset hu, heq⟩

theorem Reaches.mem {reached : List Target} {usages : List DeferUsage} {t : Target} (h : Reaches reached usages t) :
    t ∈ reached ++ usages.map .deferred := by
  rcases h with h | ⟨u, hu, rfl⟩
  · exact List.mem_append_left _ h
  · exact List.mem_append_right _ (List.mem_map_of_mem hu)

namespace CollectionWalk

/-- What a walk has met and numbered, when its numbers begin with `first`. -/
structure Known (first : Nat) (reached : List Target) (w : CollectionWalk) : Prop where
  usages : UsagesFrom first reached w.newUsages
  next : w.nextUsage = first + w.newUsages.length
  met : ∀ o ∈ w.met, Reaches reached w.newUsages o.target

end CollectionWalk

/-- After a step that succeeds, the walk goes on. -/
theorem CollectM.run_bind {α β : Type} (m : CollectM α) (k : α → CollectM β) (w : CollectionWalk) :
    (m >>= k).run.run w = match m.run.run w with
      | (.ok a, w') => (k a).run.run w'
      | (.error e, w') => (.error e, w') := by
  rw [ExceptT.run_bind, StateT.run_bind]
  show (match m.run.run w with | (r, w') => _) = _
  rcases m.run.run w with ⟨_ | a, w'⟩ <;> rfl

/-- The step keeps what the walk knows, and its outcome has a property. -/
def CollectM.Keeps {α : Type} (first : Nat) (reached : List Target) (m : CollectM α) (w : CollectionWalk)
    (Q : α → CollectionWalk → Prop) : Prop :=
  w.Known first reached → (m.run.run w).2.Known first reached ∧ w.newUsages <+: (m.run.run w).2.newUsages ∧
    ∀ a, (m.run.run w).1 = .ok a → Q a (m.run.run w).2

namespace CollectM.Keeps

variable {α β : Type} {first : Nat} {reached : List Target} {w : CollectionWalk} {Q : α → CollectionWalk → Prop}

theorem pure {a : α} (h : Q a w) : Keeps first reached (Pure.pure a) w Q := by
  refine fun hw => ⟨hw, List.prefix_refl _, fun b heq => ?_⟩
  cases heq
  exact h

theorem throw {e : CollectionError} : Keeps first reached (MonadExcept.throw e : CollectM α) w Q :=
  fun hw => ⟨hw, List.prefix_refl _, fun b heq => absurd heq (by rintro ⟨⟩)⟩

theorem bind {m : CollectM α} {k : α → CollectM β} {R : β → CollectionWalk → Prop} (h : Keeps first reached m w Q)
    (hk : ∀ a w', w.newUsages <+: w'.newUsages → Q a w' → Keeps first reached (k a) w' R) :
    Keeps first reached (m >>= k) w R := by
  intro hw
  obtain ⟨hknown, hle, hq⟩ := h hw
  rw [run_bind]
  rcases hm : m.run.run w with ⟨r, w'⟩
  rw [hm] at hknown hle hq
  cases r with
  | error e => exact ⟨hknown, hle, fun b heq => absurd heq (by rintro ⟨⟩)⟩
  | ok a =>
    obtain ⟨hknown', hle', hr⟩ := hk a w' hle (hq a rfl) hknown
    exact ⟨hknown', hle.trans hle', hr⟩

theorem get {Q : CollectionWalk → CollectionWalk → Prop} (h : Q w w) : Keeps first reached MonadState.get w Q := by
  refine fun hw => ⟨hw, List.prefix_refl _, fun b heq => ?_⟩
  cases heq
  exact h

/-- A change of the walk. -/
theorem modify {f : CollectionWalk → CollectionWalk} {Q : PUnit → CollectionWalk → Prop}
    (hknown : w.Known first reached → (f w).Known first reached) (hle : w.newUsages <+: (f w).newUsages)
    (h : Q ⟨⟩ (f w)) : Keeps first reached (modify f) w Q :=
  fun hw => ⟨hknown hw, hle, fun _ _ => h⟩

/-- Steps that are made one after another. -/
theorem forM {f : α → CollectM PUnit} (xs : List α)
    (h : ∀ x ∈ xs, ∀ w', w.newUsages <+: w'.newUsages → Keeps first reached (f x) w' fun _ _ => True) :
    Keeps first reached (xs.forM f) w fun _ _ => True := by
  rw [List.forM_eq_forM]
  induction xs generalizing w with
  | nil => exact pure trivial
  | cons x rest ih =>
    rw [List.forM_cons]
    refine bind (h x List.mem_cons_self w (List.prefix_refl _)) fun _ w' hle _ => ih fun y hy w'' hle' => ?_
    exact h y (List.mem_cons_of_mem _ hy) w'' (hle.trans hle')

end CollectM.Keeps

namespace CollectionContext

open CollectM

variable (c : CollectionContext) {first : Nat} {reached : List Target} {w : CollectionWalk}

theorem keeps_included (directives : List Directive) :
    Keeps first reached (c.included directives) w fun _ w' => w' = w := by
  unfold included
  split
  · exact Keeps.pure rfl
  · exact Keeps.throw

theorem keeps_deferred? (directives : List Directive) :
    Keeps first reached (c.deferred? directives) w fun _ w' => w' = w := by
  unfold deferred?
  split
  · exact Keeps.pure rfl
  · split
    · exact Keeps.throw
    · exact Keeps.pure rfl
    · split
      · exact Keeps.throw
      · exact Keeps.pure rfl

theorem keeps_newUsage (label : Option String) {around : Target} (haround : Reaches reached w.newUsages around) :
    Keeps first reached (newUsage label around) w fun t w' => Reaches reached w'.newUsages t := by
  refine Keeps.bind (Q := fun s w' => s = w ∧ w' = w) (Keeps.get ⟨rfl, rfl⟩) ?_
  rintro _ w - ⟨rfl, rfl⟩
  refine Keeps.bind (Q := fun _ w' => w'.newUsages = w.newUsages ++ [⟨w.nextUsage, label, around.id :: around.ancestors⟩])
    (Keeps.modify (f := fun _ => _) (fun hw => ?_) (List.prefix_append _ _) rfl) ?_
  · refine ⟨⟨fun i u hu => ?_, fun i u hu => ?_⟩, ?_, fun o ho => (hw.met o ho).mono (List.prefix_append _ _)⟩
    · rcases Nat.lt_or_ge i w.newUsages.length with hlt | hge
      · rw [List.getElem?_append_left hlt] at hu
        exact hw.usages.numbered i u hu
      · rw [List.getElem?_append_right hge] at hu
        obtain ⟨rfl, hi⟩ : u = ⟨w.nextUsage, label, around.id :: around.ancestors⟩ ∧ i = w.newUsages.length := by
          cases hsub : i - w.newUsages.length with
          | zero =>
            rw [hsub] at hu
            exact ⟨(Option.some.inj hu).symm, by omega⟩
          | succ n =>
            rw [hsub] at hu
            exact absurd hu (by simp)
        rw [hi]
        exact hw.next
    · rcases Nat.lt_or_ge i w.newUsages.length with hlt | hge
      · rw [List.getElem?_append_left hlt] at hu
        obtain ⟨t, hancestors, ht⟩ := hw.usages.around i u hu
        refine ⟨t, hancestors, ht.imp_right fun ⟨j, v, hj, hv, heq⟩ => ⟨j, v, hj, ?_, heq⟩⟩
        rw [List.getElem?_append_left (List.getElem?_eq_some_iff.1 hv).1]
        exact hv
      · rw [List.getElem?_append_right hge] at hu
        cases hsub : i - w.newUsages.length with
        | zero =>
          rw [hsub] at hu
          obtain rfl := Option.some.inj hu
          refine ⟨around, rfl, haround.imp_right fun ⟨v, hv, heq⟩ => ?_⟩
          obtain ⟨j, hj⟩ := List.mem_iff_getElem?.1 hv
          have hlt := (List.getElem?_eq_some_iff.1 hj).1
          exact ⟨j, v, by omega, by rw [List.getElem?_append_left hlt]; exact hj, heq⟩
        | succ n =>
          rw [hsub] at hu
          exact absurd hu (by simp)
    · show w.nextUsage + 1 = first + (w.newUsages ++ [_]).length
      rw [hw.next, List.length_append]
      rfl
  · intro _ w' _ hnew
    refine Keeps.pure (Or.inr ⟨_, ?_, rfl⟩)
    rw [hnew]
    exact List.mem_append_right _ (List.mem_singleton_self _)

theorem keeps_targetWithin (defer : Option DeferDirective) {target : Target}
    (htarget : Reaches reached w.newUsages target) :
    Keeps first reached (targetWithin defer target) w fun t w' => Reaches reached w'.newUsages t := by
  unfold targetWithin
  split
  · exact Keeps.pure htarget
  · exact keeps_newUsage _ htarget

theorem keeps_step (objectType : String) {target : Target} (htarget : Reaches reached w.newUsages target)
    (selection : Selection) :
    Keeps first reached (c.step objectType target selection) w fun below? w' =>
      ∀ below, below? = some below → Reaches reached w'.newUsages below.2 := by
  have hnone : ∀ {w' : CollectionWalk}, Keeps first reached (Pure.pure none : CollectM (Option (List Selection × Target))) w'
      fun below? w' => ∀ below, below? = some below → Reaches reached w'.newUsages below.2 :=
    Keeps.pure (by simp)
  have hwithin : ∀ {w' : CollectionWalk} (defer : Option DeferDirective) (selections : List Selection),
      Reaches reached w'.newUsages target → Keeps first reached (do
        let target ← targetWithin defer target
        return some (selections, target)) w'
      fun below? w' => ∀ below, below? = some below → Reaches reached w'.newUsages below.2 := by
    intro w' defer selections ht
    refine Keeps.bind (keeps_targetWithin defer ht) fun t w'' _ ht' => Keeps.pure fun below heq => ?_
    cases heq
    exact ht'
  unfold step
  cases selection with
  | field node =>
    refine Keeps.bind (c.keeps_included node.directives) ?_
    rintro b w - rfl
    split
    · dsimp only
      refine Keeps.bind (Q := fun _ _ => True) (Keeps.modify (fun hw => ?_) (List.prefix_refl _) trivial)
        fun _ w' _ _ => hnone
      refine ⟨hw.usages, hw.next, fun o ho => ?_⟩
      rcases List.mem_append.1 ho with ho | ho
      · exact hw.met o ho
      · rw [List.mem_singleton.1 ho]
        exact htarget
    · exact hnone
  | inline node =>
    refine Keeps.bind (c.keeps_included node.directives) ?_
    rintro b w - rfl
    split
    · exact hnone
    · refine Keeps.bind (c.keeps_deferred? node.directives) ?_
      rintro defer w - rfl
      exact hwithin defer _ htarget
  | spread node =>
    refine Keeps.bind (c.keeps_included node.directives) ?_
    rintro b w - rfl
    split
    · exact hnone
    · refine Keeps.bind (c.keeps_deferred? node.directives) ?_
      rintro defer w - rfl
      refine Keeps.bind (Q := fun _ w' => w' = w) (Keeps.get rfl) ?_
      rintro _ w - rfl
      split
      · exact hnone
      · split
        · exact hnone
        · split
          · exact hnone
          · split
            · dsimp only
              refine Keeps.bind (Q := fun _ w' => w'.newUsages = w.newUsages)
                (Keeps.modify (fun hw => ⟨hw.usages, hw.next, hw.met⟩) (List.prefix_refl _) rfl) ?_
              intro _ w' _ heq
              exact hwithin defer _ (by rw [heq]; exact htarget)
            · exact hwithin defer _ htarget

/-- A walk knows all targets that it meets. -/
theorem keeps_walk (objectType : String) (depth : Nat) {target : Target} (htarget : Reaches reached w.newUsages target)
    (selections : List Selection) :
    Keeps first reached (c.walk objectType depth target selections) w fun _ _ => True := by
  induction depth generalizing w target selections with
  | zero => exact Keeps.throw
  | succ depth ih =>
    unfold walk
    refine Keeps.forM selections fun selection _ w₁ hle => ?_
    refine Keeps.bind (c.keeps_step objectType (htarget.mono hle) selection) fun below? w' _ hbelow => ?_
    cases below? with
    | none => exact Keeps.pure trivial
    | some below => exact ih (hbelow below rfl) below.1

end CollectionContext

end GraphQL
