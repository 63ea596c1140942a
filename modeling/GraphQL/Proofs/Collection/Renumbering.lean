import GraphQL.Proofs.Collection.Sorting
import Mathlib.Data.List.Forall2

/-!
# Collection does not depend on numbers

Two collections with different numbers to hand out meet the same fields, each in a target that stands for the other one
(`Target.Matching`).  So the groups that stay with the fields around them come under the same keys in the same order, and
they are alike again (`Collector.collectBelow_alike`).  Groups that are collected are grounded, and these are like
themselves (`FieldGroup.Grounded.alike`).
-/

namespace GraphQL

/-- The targets around a target have smaller numbers. -/
def Target.Nested (t : Target) : Prop := ∀ a ∈ t.ancestors, a < t.id

/-- Targets that stand for each other: equal ones for equal ones, their numbers in the same order, with the same of them
around each other. -/
structure Target.Matching (R : Target → Target → Prop) : Prop where
  eq : ∀ {t t' u u'}, R t t' → R u u' → (t = u ↔ t' = u')
  lt : ∀ {t t' u u'}, R t t' → R u u' → (t.id < u.id ↔ t'.id < u'.id)
  around : ∀ {t t' u u'}, R t t' → R u u' → (u.id ∈ t.ancestors ↔ u'.id ∈ t'.ancestors)
  nested : ∀ {t t'}, R t t' → t.Nested ∧ t'.Nested

/-- The ids of targets that stand for each other come before two numbers. -/
def Target.Below (first first' : Nat) (R : Target → Target → Prop) : Prop :=
  ∀ {t t'}, R t t' → t.id < first ∧ t'.id < first'

/-- Two more targets stand for each other. -/
def Target.With (R : Target → Target → Prop) (u u' : Target) (t t' : Target) : Prop := R t t' ∨ t = u ∧ t' = u'

namespace Target.Matching

variable {R S : Target → Target → Prop} {first first' : Nat}

theorem mono (h : Matching R) (hle : ∀ {t t'}, S t t' → R t t') : Matching S :=
  ⟨fun ht hu => h.eq (hle ht) (hle hu), fun ht hu => h.lt (hle ht) (hle hu), fun ht hu => h.around (hle ht) (hle hu),
    fun ht => h.nested (hle ht)⟩

/-- Targets stand for themselves. -/
theorem refl : Matching fun t t' => t = t' ∧ t.Nested := by
  refine ⟨?_, ?_, ?_, ?_⟩
  · rintro t _ u _ ⟨rfl, -⟩ ⟨rfl, -⟩
    exact Iff.rfl
  · rintro t _ u _ ⟨rfl, -⟩ ⟨rfl, -⟩
    exact Iff.rfl
  · rintro t _ u _ ⟨rfl, -⟩ ⟨rfl, -⟩
    exact Iff.rfl
  · rintro t _ ⟨rfl, ht⟩
    exact ⟨ht, ht⟩

/-- The initial result stands for itself. -/
theorem initial : Matching fun t t' => t = .initial ∧ t' = .initial := by
  refine ⟨?_, ?_, ?_, ?_⟩
  · rintro _ _ _ _ ⟨rfl, rfl⟩ ⟨rfl, rfl⟩
    exact Iff.rfl
  · rintro _ _ _ _ ⟨rfl, rfl⟩ ⟨rfl, rfl⟩
    exact Iff.rfl
  · rintro _ _ _ _ ⟨rfl, rfl⟩ ⟨rfl, rfl⟩
    exact Iff.rfl
  · rintro _ _ ⟨rfl, rfl⟩
    exact ⟨fun a ha => absurd ha List.not_mem_nil, fun a ha => absurd ha List.not_mem_nil⟩

theorem id_eq (h : Matching R) {t t' u u' : Target} (ht : R t t') (hu : R u u') : t.id = u.id ↔ t'.id = u'.id := by
  have hlt := h.lt ht hu
  have hgt := h.lt hu ht
  omega

/-- New uses of `@defer` inside targets that stand for each other. -/
theorem with_new (h : Matching R) (hbelow : Below first first' R) (label : Option String) {t t' : Target} (ht : R t t') :
    Matching (With R (.deferred ⟨first, label, t.id :: t.ancestors⟩) (.deferred ⟨first', label, t'.id :: t'.ancestors⟩)) := by
  -- the new numbers come after the others and after those of the targets around them
  have hne : ∀ {v v'}, R v v' → v ≠ .deferred ⟨first, label, t.id :: t.ancestors⟩ ∧
      v' ≠ .deferred ⟨first', label, t'.id :: t'.ancestors⟩ := by
    intro v v' hv
    obtain ⟨hlt, hlt'⟩ := hbelow hv
    refine ⟨?_, ?_⟩
    · rintro rfl
      exact Nat.lt_irrefl _ hlt
    · rintro rfl
      exact Nat.lt_irrefl _ hlt'
  have hnot : ∀ {v v'}, R v v' → first ∉ v.ancestors ∧ first' ∉ v'.ancestors := by
    intro v v' hv
    obtain ⟨hlt, hlt'⟩ := hbelow hv
    obtain ⟨hnested, hnested'⟩ := h.nested hv
    exact ⟨fun hmem => Nat.lt_asymm hlt (hnested _ hmem), fun hmem => Nat.lt_asymm hlt' (hnested' _ hmem)⟩
  refine ⟨?_, ?_, ?_, ?_⟩
  · rintro v v' u u' (hv | ⟨rfl, rfl⟩) (hu | ⟨rfl, rfl⟩)
    · exact h.eq hv hu
    · simp [hne hv]
    · simp [(hne hu).1.symm, (hne hu).2.symm]
    · simp
  · rintro v v' u u' (hv | ⟨rfl, rfl⟩) (hu | ⟨rfl, rfl⟩)
    · exact h.lt hv hu
    · exact iff_of_true (hbelow hv).1 (hbelow hv).2
    · exact iff_of_false (Nat.lt_asymm (hbelow hu).1) (Nat.lt_asymm (hbelow hu).2)
    · exact iff_of_false (Nat.lt_irrefl _) (Nat.lt_irrefl _)
  · rintro v v' u u' (hv | ⟨rfl, rfl⟩) (hu | ⟨rfl, rfl⟩)
    · exact h.around hv hu
    · exact iff_of_false (hnot hv).1 (hnot hv).2
    · show u.id ∈ t.id :: t.ancestors ↔ u'.id ∈ t'.id :: t'.ancestors
      rw [List.mem_cons, List.mem_cons, h.id_eq hu ht, h.around ht hu]
    · refine iff_of_false ?_ ?_
      · intro hmem
        rcases List.mem_cons.1 hmem with heq | hmem
        · exact Nat.ne_of_gt (hbelow ht).1 heq
        · exact (hnot ht).1 hmem
      · intro hmem
        rcases List.mem_cons.1 hmem with heq | hmem
        · exact Nat.ne_of_gt (hbelow ht).2 heq
        · exact (hnot ht).2 hmem
  · have hnested : ∀ {n : Nat} {v : Target}, v.id < n → v.Nested → ∀ a ∈ v.id :: v.ancestors, a < n := by
      intro n v hlt hv a ha
      rcases List.mem_cons.1 ha with rfl | ha
      · exact hlt
      · exact Nat.lt_trans (hv a ha) hlt
    rintro v v' (hv | ⟨rfl, rfl⟩)
    · exact h.nested hv
    · exact ⟨hnested (hbelow ht).1 (h.nested ht).1, hnested (hbelow ht).2 (h.nested ht).2⟩

end Target.Matching

/-! ### Walks -/

/-- The same field, met in targets that stand for each other. -/
structure Occurrence.Alike (R : Target → Target → Prop) (o o' : Occurrence) : Prop where
  key : o.key = o'.key
  node : o.node = o'.node
  target : R o.target o'.target

/-- Uses of `@defer` that stand for each other, with the same label, inside targets that do. -/
structure DeferUsage.Alike (R : Target → Target → Prop) (u u' : DeferUsage) : Prop where
  label : u.label = u'.label
  target : R (.deferred u) (.deferred u')
  around : ∃ t t', R t t' ∧ u.ancestors = t.id :: t.ancestors ∧ u'.ancestors = t'.id :: t'.ancestors

theorem DeferUsage.Alike.mono {R S : Target → Target → Prop} {u u' : DeferUsage} (h : u.Alike R u')
    (hle : ∀ {t t'}, R t t' → S t t') : u.Alike S u' := by
  obtain ⟨t, t', ht, hancestors⟩ := h.around
  exact ⟨h.label, hle h.target, t, t', hle ht, hancestors⟩

/-- Walks that met the same fields, and numbered the same uses of `@defer`, in targets that stand for each other. -/
structure CollectionWalk.Alike (R : Target → Target → Prop) (w w' : CollectionWalk) : Prop where
  met : List.Forall₂ (Occurrence.Alike R) w.met w'.met
  usages : List.Forall₂ (DeferUsage.Alike R) w.newUsages w'.newUsages
  visited : w.visited = w'.visited
  matching : Target.Matching R
  below : Target.Below w.nextUsage w'.nextUsage R

/-- From walks that are alike, two steps fail alike or lead to walks that are alike, where their outcomes have a property. -/
def CollectM.Alike {α β : Type} (R : Target → Target → Prop) (m : CollectM α) (w : CollectionWalk) (m' : CollectM β)
    (w' : CollectionWalk) (Q : (Target → Target → Prop) → α → CollectionWalk → β → CollectionWalk → Prop) : Prop :=
  w.Alike R w' → (∃ e, (m.run.run w).1 = .error e ∧ (m'.run.run w').1 = .error e) ∨
    ∃ a b S, (m.run.run w).1 = .ok a ∧ (m'.run.run w').1 = .ok b ∧ (∀ {t t'}, R t t' → S t t') ∧
      (m.run.run w).2.Alike S (m'.run.run w').2 ∧ Q S a (m.run.run w).2 b (m'.run.run w').2

namespace CollectM.Alike

variable {α β γ δ : Type} {R : Target → Target → Prop} {w w' : CollectionWalk}

theorem pure {a : α} {b : β} {Q : (Target → Target → Prop) → α → CollectionWalk → β → CollectionWalk → Prop}
    (h : Q R a w b w') : Alike R (Pure.pure a) w (Pure.pure b) w' Q :=
  fun hw => .inr ⟨a, b, R, rfl, rfl, fun h => h, hw, h⟩

theorem throw {e : CollectionError} {Q : (Target → Target → Prop) → α → CollectionWalk → β → CollectionWalk → Prop} :
    Alike R (MonadExcept.throw e : CollectM α) w (MonadExcept.throw e : CollectM β) w' Q :=
  fun _ => .inl ⟨e, rfl, rfl⟩

theorem bind {m : CollectM α} {m' : CollectM β} {k : α → CollectM γ} {k' : β → CollectM δ}
    {Q : (Target → Target → Prop) → α → CollectionWalk → β → CollectionWalk → Prop}
    {Q' : (Target → Target → Prop) → γ → CollectionWalk → δ → CollectionWalk → Prop} (h : Alike R m w m' w' Q)
    (hk : ∀ S a v b v', (∀ {t t'}, R t t' → S t t') → Q S a v b v' → Alike S (k a) v (k' b) v' Q') :
    Alike R (m >>= k) w (m' >>= k') w' Q' := by
  intro hw
  rw [run_bind, run_bind]
  rcases hm : m.run.run w with ⟨r, v⟩
  rcases hm' : m'.run.run w' with ⟨r', v'⟩
  have hstep := h hw
  rw [hm, hm'] at hstep
  rcases hstep with ⟨e, rfl, rfl⟩ | ⟨a, b, S, rfl, rfl, hle, hv, hq⟩
  · exact .inl ⟨e, rfl, rfl⟩
  · rcases hk S a v b v' hle hq hv with hfail | ⟨x, y, T, hx, hy, hle', hrest⟩
    · exact .inl hfail
    · exact .inr ⟨x, y, T, hx, hy, fun ht => hle' (hle ht), hrest⟩

theorem get : Alike R MonadState.get w MonadState.get w' fun S a v b v' =>
    S = R ∧ a = w ∧ v = w ∧ b = w' ∧ v' = w' :=
  fun hw => .inr ⟨w, w', R, rfl, rfl, fun h => h, hw, rfl, rfl, rfl, rfl, rfl⟩

/-- The same fragments were visited. -/
theorem get_visited : Alike R MonadState.get w MonadState.get w' fun S a v b v' =>
    S = R ∧ a.visited = b.visited ∧ v = w ∧ v' = w' :=
  fun hw => .inr ⟨w, w', R, rfl, rfl, fun h => h, hw, rfl, hw.visited, rfl, rfl⟩

/-- Both walks are changed. -/
theorem modify {f f' : CollectionWalk → CollectionWalk} {S : Target → Target → Prop} (hle : ∀ {t t'}, R t t' → S t t')
    (h : w.Alike R w' → (f w).Alike S (f' w')) {Q : (Target → Target → Prop) → PUnit → CollectionWalk → PUnit →
      CollectionWalk → Prop} (hq : Q S ⟨⟩ (f w) ⟨⟩ (f' w')) :
    Alike R (modify f) w (modify f') w' Q :=
  fun hw => .inr ⟨⟨⟩, ⟨⟩, S, rfl, rfl, hle, h hw, hq⟩

/-- Steps that are made one after another, for elements that are alike. -/
theorem forM {P : (Target → Target → Prop) → α → β → Prop}
    (hmono : ∀ {S T : Target → Target → Prop}, (∀ {t t'}, S t t' → T t t') → ∀ {x y}, P S x y → P T x y)
    {f : α → CollectM PUnit} {f' : β → CollectM PUnit}
    (h : ∀ {S x y v v'}, P S x y → Alike S (f x) v (f' y) v' fun _ _ _ _ _ => True) {xs : List α} {ys : List β}
    (hxs : List.Forall₂ (P R) xs ys) : Alike R (xs.forM f) w (ys.forM f') w' fun _ _ _ _ _ => True := by
  rw [List.forM_eq_forM, List.forM_eq_forM]
  induction xs generalizing ys R w w' with
  | nil =>
    cases hxs
    exact pure trivial
  | cons x xs ih =>
    cases hxs with
    | cons hx hrest =>
      rw [List.forM_cons, List.forM_cons]
      exact bind (h hx) fun _ _ _ _ _ hle _ => ih (hrest.imp fun _ _ => hmono hle)

end CollectM.Alike

namespace CollectionContext

open CollectM

variable (c : CollectionContext) {R : Target → Target → Prop} {w w' : CollectionWalk}

theorem alike_included (directives : List Directive) :
    Alike R (c.included directives) w (c.included directives) w' fun S a v b v' => S = R ∧ a = b ∧ v = w ∧ v' = w' := by
  unfold included
  split
  · exact Alike.pure ⟨rfl, rfl, rfl, rfl⟩
  · exact Alike.throw

theorem alike_deferred? (directives : List Directive) :
    Alike R (c.deferred? directives) w (c.deferred? directives) w' fun S a v b v' => S = R ∧ a = b ∧ v = w ∧ v' = w' := by
  unfold deferred?
  split
  · exact Alike.pure ⟨rfl, rfl, rfl, rfl⟩
  · split
    · exact Alike.throw
    · exact Alike.pure ⟨rfl, rfl, rfl, rfl⟩
    · split
      · exact Alike.throw
      · exact Alike.pure ⟨rfl, rfl, rfl, rfl⟩

/-- New uses of `@defer` stand for each other. -/
theorem alike_newUsage (label : Option String) {t t' : Target} (ht : R t t') :
    Alike R (newUsage label t) w (newUsage label t') w' fun S u _ u' _ => S u u' := by
  refine Alike.bind Alike.get ?_
  rintro R _ w _ w' - ⟨rfl, rfl, rfl, rfl, rfl⟩
  let u : Target := .deferred ⟨w.nextUsage, label, t.id :: t.ancestors⟩
  let u' : Target := .deferred ⟨w'.nextUsage, label, t'.id :: t'.ancestors⟩
  refine Alike.bind (Q := fun S _ _ _ _ => S u u')
    (Alike.modify (S := Target.With R u u') .inl (fun hw => ?_) (.inr ⟨rfl, rfl⟩))
    fun S _ _ _ _ _ hu => Alike.pure hu
  refine ⟨hw.met.imp fun _ _ h => ⟨h.key, h.node, .inl h.target⟩, ?_, hw.visited, hw.matching.with_new hw.below label ht, ?_⟩
  · exact List.rel_append (hw.usages.imp fun _ _ h => h.mono .inl)
      (.cons ⟨rfl, .inr ⟨rfl, rfl⟩, t, t', .inl ht, rfl, rfl⟩ .nil)
  rintro v v' (hv | ⟨rfl, rfl⟩)
  · obtain ⟨hlt, hlt'⟩ := hw.below hv
    exact ⟨Nat.lt_succ_of_lt hlt, Nat.lt_succ_of_lt hlt'⟩
  · exact ⟨Nat.lt_succ_self _, Nat.lt_succ_self _⟩

theorem alike_targetWithin (defer : Option DeferDirective) {t t' : Target} (ht : R t t') :
    Alike R (targetWithin defer t) w (targetWithin defer t') w' fun S u _ u' _ => S u u' := by
  unfold targetWithin
  cases defer with
  | none => exact Alike.pure ht
  | some d => exact alike_newUsage d.label ht

/-- The same selections are to be followed, with targets that stand for each other. -/
def FollowsAlike (S : Target → Target → Prop) (below? : Option (List Selection × Target)) (_ : CollectionWalk)
    (below?' : Option (List Selection × Target)) (_ : CollectionWalk) : Prop :=
  Option.Rel (fun below below' => below.1 = below'.1 ∧ S below.2 below'.2) below? below?'

theorem alike_step (objectType : String) {t t' : Target} (ht : R t t') (selection : Selection) :
    Alike R (c.step objectType t selection) w (c.step objectType t' selection) w' FollowsAlike := by
  have hnone : ∀ {S : Target → Target → Prop} {v v' : CollectionWalk}, Alike S
      (pure none : CollectM (Option (List Selection × Target))) v (pure none) v' FollowsAlike := Alike.pure .none
  have hwithin : ∀ {S : Target → Target → Prop} {v v' : CollectionWalk} (defer : Option DeferDirective)
      (selections : List Selection), S t t' → Alike S (do
        let target ← targetWithin defer t
        return some (selections, target)) v (do
        let target ← targetWithin defer t'
        return some (selections, target)) v' FollowsAlike :=
    fun defer selections ht => Alike.bind (alike_targetWithin defer ht) fun S u _ u' _ _ hu =>
      Alike.pure (.some ⟨rfl, hu⟩)
  unfold step
  cases selection with
  | field node =>
    refine Alike.bind (c.alike_included node.directives) ?_
    rintro R b w _ w' hle ⟨rfl, rfl, rfl, rfl⟩
    cases b with
    | true =>
      refine Alike.bind (Q := fun _ _ _ _ _ => True) (Alike.modify (S := R) (fun h => h) (fun hw => ?_) trivial)
        fun _ _ _ _ _ _ _ => hnone
      exact ⟨List.rel_append hw.met (.cons ⟨rfl, rfl, hle ht⟩ .nil), hw.usages, hw.visited, hw.matching, hw.below⟩
    | false => exact hnone
  | inline node =>
    refine Alike.bind (c.alike_included node.directives) ?_
    rintro R b w _ w' hle ⟨rfl, rfl, rfl, rfl⟩
    split
    · exact hnone
    · refine Alike.bind (c.alike_deferred? node.directives) ?_
      rintro R defer w _ w' hle' ⟨rfl, rfl, rfl, rfl⟩
      exact hwithin defer _ (hle ht)
  | spread node =>
    refine Alike.bind (c.alike_included node.directives) ?_
    rintro R b w _ w' hle ⟨rfl, rfl, rfl, rfl⟩
    split
    · exact hnone
    · refine Alike.bind (c.alike_deferred? node.directives) ?_
      rintro R defer w _ w' hle' ⟨rfl, rfl, rfl, rfl⟩
      refine Alike.bind Alike.get_visited ?_
      rintro R walk v _ v' hle'' ⟨rfl, hvisited, rfl, rfl⟩
      rw [← hvisited]
      split
      · exact hnone
      · cases c.document.fragment? node.name.value with
        | none => exact hnone
        | some fragment =>
          dsimp only
          split
          · exact hnone
          · split
            · refine Alike.bind (Q := fun S _ _ _ _ => S t t') (Alike.modify (S := R) (fun h => h) (fun hw => ?_) (hle ht))
                fun _ _ _ _ _ _ ht' => hwithin defer _ ht'
              exact ⟨hw.met, hw.usages, congrArg (node.name.value :: ·) hw.visited, hw.matching, hw.below⟩
            · exact hwithin defer _ (hle ht)

/-- Walks through the same selections are alike. -/
theorem alike_walk (objectType : String) (depth : Nat) {t t' : Target} (ht : R t t') (selections : List Selection) :
    Alike R (c.walk objectType depth t selections) w (c.walk objectType depth t' selections) w' fun _ _ _ _ _ => True := by
  induction depth generalizing w w' t t' R selections with
  | zero => exact Alike.throw
  | succ depth ih =>
    unfold walk
    refine Alike.forM (P := fun S x y => x = y ∧ S t t') (fun hle _ _ h => ⟨h.1, hle h.2⟩)
      (fun {S selection _ v v'} h => ?_) (List.forall₂_same.2 fun _ _ => ⟨rfl, ht⟩)
    obtain ⟨rfl, ht⟩ := h
    refine Alike.bind (c.alike_step objectType ht selection) fun T below? _ below?' _ _ hbelow => ?_
    cases hbelow with
    | none => exact Alike.pure trivial
    | @some below below' h =>
      obtain ⟨below, u⟩ := below
      obtain ⟨_, u'⟩ := below'
      obtain ⟨rfl, hu⟩ := h
      exact ih hu below

end CollectionContext

/-! ### Groups -/

/-- The same field, met in targets that stand for each other. -/
def FieldDetails.Alike (R : Target → Target → Prop) (d d' : FieldDetails) : Prop :=
  d.node = d'.node ∧ R d.target d'.target

/-- Walks through the selections below the same fields are alike. -/
theorem CollectionContext.alike_below (c : CollectionContext) {R : Target → Target → Prop} {w w' : CollectionWalk}
    (objectType : String) {details details' : List FieldDetails} (h : List.Forall₂ (FieldDetails.Alike R) details details') :
    CollectM.Alike R
      (details.forM fun details => match details.node.selectionSet with
        | some set => c.walk objectType (c.depthBound set.selections) details.target set.selections
        | none => return ()) w
      (details'.forM fun details => match details.node.selectionSet with
        | some set => c.walk objectType (c.depthBound set.selections) details.target set.selections
        | none => return ()) w' fun _ _ _ _ _ => True := by
  refine CollectM.Alike.forM (fun hle _ _ hd => ⟨hd.1, hle hd.2⟩) (fun {T d d' w w'} hd => ?_) h
  obtain ⟨hnode, ht⟩ := hd
  rw [hnode]
  cases d'.node.selectionSet with
  | none => exact CollectM.Alike.pure trivial
  | some set => exact c.alike_walk objectType _ ht set.selections

/-- Groups of the same fields, met and delivered in targets that stand for each other. -/
structure FieldGroup.Alike (g g' : FieldGroup) : Prop where
  targets : g.targets.targets ⊆ g.reached
  targets' : g'.targets.targets ⊆ g'.reached
  fields : ∃ R, Target.Matching R ∧ List.Forall₂ R g.targets.targets g'.targets.targets ∧
    List.Forall₂ (FieldDetails.Alike R) g.fields g'.fields

/-- Groups that are alike under the same keys. -/
def GroupedFieldSet.Alike (fields fields' : GroupedFieldSet) : Prop :=
  List.Forall₂ (fun field field' => field.1 = field'.1 ∧ field.2.Alike field'.2) fields fields'

/-- Collections that both fail, or find groups that are alike for where the fields around them are delivered. -/
def CollectedFields.Alike : Except CollectionError CollectedFields → Except CollectionError CollectedFields → Prop
  | .error _, .error _ => True
  | .ok collected, .ok collected' => GroupedFieldSet.Alike collected.fields collected'.fields
  | _, _ => False

/-- The group is delivered in targets in which its fields were met. -/
structure FieldGroup.Grounded (g : FieldGroup) : Prop where
  targets : g.targets.targets ⊆ g.reached
  nested : ∀ t ∈ g.reached, t.Nested

theorem FieldGroup.Grounded.alike {g : FieldGroup} (h : g.Grounded) : g.Alike g := by
  refine ⟨h.targets, h.targets, _, .refl, ?_, ?_⟩
  · exact List.forall₂_same.2 fun t ht => ⟨rfl, h.nested t (h.targets ht)⟩
  · exact List.forall₂_same.2 fun d hd => ⟨rfl, rfl, h.nested _ (List.mem_map_of_mem hd)⟩

section Lists

variable {α β : Type} {R : α → β → Prop}

/-- Repetitions stand at the same positions of lists whose equal entries stand for equal ones. -/
theorem forall₂_eraseDups [DecidableEq α] [DecidableEq β] (hR : ∀ {x y u v}, R x y → R u v → (x = u ↔ y = v))
    {xs : List α} {ys : List β} (h : List.Forall₂ R xs ys) : List.Forall₂ R xs.eraseDups ys.eraseDups := by
  -- by induction on the length, since the repetitions are filtered first
  generalize hn : xs.length = n
  induction n using Nat.strongRecOn generalizing xs ys with
  | _ n ih =>
    cases h with
    | nil => exact .nil
    | @cons x y xs ys hxy hrest =>
      rw [List.eraseDups_cons, List.eraseDups_cons]
      have hfiltered : List.Forall₂ R (xs.filter fun u => !u == x) (ys.filter fun v => !v == y) :=
        List.rel_filter (fun u v huv => by simp [hR huv hxy]) hrest
      refine .cons hxy (ih _ ?_ hfiltered rfl)
      rw [← hn, List.length_cons]
      exact Nat.lt_succ_of_le (List.length_filter_le _ _)

/-- Lists are equal if those that stand for them are. -/
theorem forall₂_eq_iff (hR : ∀ {x y u v}, R x y → R u v → (x = u ↔ y = v)) {xs us : List α} {ys vs : List β}
    (h : List.Forall₂ R xs ys) (h' : List.Forall₂ R us vs) : xs = us ↔ ys = vs := by
  induction h generalizing us vs with
  | nil => cases h' <;> simp
  | cons hxy _ ih =>
    cases h' with
    | nil => simp
    | cons huv hrest => rw [List.cons.injEq, List.cons.injEq, hR hxy huv, ih hrest]

end Lists

namespace TargetSet

variable {R : Target → Target → Prop}

private theorem insertSorted_alike (hR : Target.Matching R) {t t' : Target} (ht : R t t') {ts ts' : List Target}
    (h : List.Forall₂ R ts ts') : List.Forall₂ R (insertSorted t ts) (insertSorted t' ts') := by
  induction h with
  | nil => exact .cons ht .nil
  | @cons u u' ts ts' hu hrest ih =>
    unfold insertSorted
    simp only [hR.lt ht hu, hR.id_eq ht hu]
    split
    · exact .cons ht (.cons hu hrest)
    · split
      · exact .cons hu hrest
      · exact .cons hu ih

/-- Sets of targets that stand for each other. -/
theorem ofList_alike (hR : Target.Matching R) {ts ts' : List Target} (h : List.Forall₂ R ts ts') :
    List.Forall₂ R (ofList ts).targets (ofList ts').targets := by
  have hfoldl : ∀ {sorted sorted' : List Target}, List.Forall₂ R sorted sorted' →
      List.Forall₂ R (ts.foldl (fun sorted t => insertSorted t sorted) sorted)
        (ts'.foldl (fun sorted t => insertSorted t sorted) sorted') := by
    induction h with
    | nil => exact fun h => h
    | cons ht _ ih => exact fun h => ih (insertSorted_alike hR ht h)
  exact hfoldl .nil

end TargetSet

namespace Occurrence

variable {R : Target → Target → Prop} {met met' : List Occurrence}

/-- The same targets are masked by targets that stand for each other. -/
private theorem masked_alike (hR : Target.Matching R) {ts ts' : List Target} (h : List.Forall₂ R ts ts') {t t' : Target}
    (ht : R t t') : (t.ancestors.all fun a => !(ts.map Target.id).contains a) =
      t'.ancestors.all fun a => !(ts'.map Target.id).contains a := by
  have hmasked : ∀ (ts : List Target) (t : Target), (t.ancestors.all fun a => !(ts.map Target.id).contains a) = true ↔
      ∀ u ∈ ts, u.id ∉ t.ancestors := by
    intro ts t
    simp only [List.all_eq_true, Bool.not_eq_true', List.contains_eq_mem, decide_eq_false_iff_not, List.mem_map]
    exact ⟨fun h u hu hmem => h _ hmem ⟨u, hu, rfl⟩, fun h a ha ⟨u, hu, heq⟩ => h u hu (heq ▸ ha)⟩
  rw [Bool.eq_iff_iff, hmasked, hmasked]
  induction h with
  | nil => simp
  | cons hu _ ih => rw [List.forall_mem_cons, List.forall_mem_cons, hR.around ht hu, ih]

section

variable (h : List.Forall₂ (Occurrence.Alike R) met met')
include h

theorem keys_eq : keys met = keys met' := by
  unfold keys
  refine congrArg List.eraseDups ?_
  rw [← List.forall₂_eq_eq_eq]
  exact List.rel_map (fun _ _ ho => ho.key) h

theorem ofKey_alike (key : String) : List.Forall₂ (Occurrence.Alike R) (ofKey met key) (ofKey met' key) :=
  List.rel_filter (fun _ _ ho => by simp [ho.key]) h

theorem targetsOf_alike (hR : Target.Matching R) (key : String) :
    List.Forall₂ R (targetsOf met key) (targetsOf met' key) :=
  forall₂_eraseDups hR.eq (List.rel_map (fun _ _ ho => ho.target) (ofKey_alike h key))

theorem details_alike (hR : Target.Matching R) (key : String) :
    List.Forall₂ (FieldDetails.Alike R) (details met key) (details met' key) := by
  refine List.rel_flatMap (targetsOf_alike h hR key) fun t t' ht => ?_
  exact List.rel_map (fun _ _ ho => ⟨ho.node, ht⟩)
    (List.rel_filter (fun _ _ ho => by simp [hR.eq ho.target ht]) (ofKey_alike h key))

/-- Keys are delivered in targets that stand for each other. -/
theorem maskingSet_alike (hR : Target.Matching R) (key : String) :
    List.Forall₂ R (maskingSet met key).targets (maskingSet met' key).targets := by
  have htargets := targetsOf_alike h hR key
  exact TargetSet.ofList_alike hR (List.rel_filter (fun t t' ht => Bool.eq_iff_iff.1 (masked_alike hR htargets ht)) htargets)

/-- The same keys are delivered in sets that stand for each other. -/
theorem keysOf_eq (hR : Target.Matching R) {parent parent' : TargetSet}
    (hparent : List.Forall₂ R parent.targets parent'.targets) : keysOf met parent = keysOf met' parent' := by
  unfold keysOf
  rw [keys_eq h]
  refine List.filter_congr fun key _ => ?_
  have hiff := forall₂_eq_iff hR.eq (maskingSet_alike h hR key) hparent
  refine decide_eq_decide.2 ?_
  rw [← TargetSet.mk.injEq, ← TargetSet.mk.injEq] at hiff
  exact hiff

theorem groups_alike (hR : Target.Matching R) {parent parent' : TargetSet}
    (hparent : List.Forall₂ R parent.targets parent'.targets) (next next' : Nat) {keys : List String}
    (hkeys : ∀ key ∈ keys, maskingSet met key = parent ∧ maskingSet met' key = parent') :
    GroupedFieldSet.Alike (groups met parent next keys) (groups met' parent' next' keys) := by
  induction keys generalizing next next' with
  | nil => exact .nil
  | cons key rest ih =>
    obtain ⟨hkey, hkey'⟩ := hkeys key List.mem_cons_self
    have ih := fun next next' => ih next next' fun key hmem => hkeys key (List.mem_cons_of_mem _ hmem)
    have hdetails := details_alike h hR key
    have hreached : parent.targets ⊆ (details met key).map FieldDetails.target := fun t ht =>
      mem_map_details.2 (mem_maskingSet (hkey ▸ ht))
    have hreached' : parent'.targets ⊆ (details met' key).map FieldDetails.target := fun t ht =>
      mem_map_details.2 (mem_maskingSet (hkey' ▸ ht))
    unfold groups
    generalize details met key = found at hdetails hreached
    generalize details met' key = found' at hdetails hreached'
    cases hdetails with
    | nil => exact ih next next'
    | cons hfirst hothers =>
      exact .cons ⟨rfl, hreached, hreached', R, hR, hparent, .cons hfirst hothers⟩ (ih (next + 1) (next' + 1))

end

end Occurrence

/-! ### Collections -/

/-- New uses of `@defer` have larger numbers than the targets around them. -/
theorem UsagesFrom.nested {first : Nat} {reached : List Target} {usages : List DeferUsage}
    (h : UsagesFrom first reached usages) (hreached : ∀ t ∈ reached, t.id < first ∧ t.Nested) :
    ∀ u ∈ usages, (Target.deferred u).Nested := by
  have hnumbered : ∀ (i : Nat) u, usages[i]? = some u → (Target.deferred u).Nested := by
    intro i
    induction i using Nat.strongRecOn with
    | _ i ih =>
      intro u hu a ha
      obtain ⟨t, hancestors, ht⟩ := h.around i u hu
      have hid : u.id = first + i := h.numbered i u hu
      obtain ⟨hlt, hnested⟩ : t.id < first + i ∧ t.Nested := by
        rcases ht with ht | ⟨j, v, hj, hv, rfl⟩
        · obtain ⟨hlt, hnested⟩ := hreached t ht
          exact ⟨Nat.lt_add_right i hlt, hnested⟩
        · refine ⟨?_, ih j hj v hv⟩
          show v.id < first + i
          rw [h.numbered j v hv]
          exact Nat.add_lt_add_left hj first
      show a < u.id
      rw [hid]
      change a ∈ u.ancestors at ha
      rw [hancestors] at ha
      rcases List.mem_cons.1 ha with rfl | ha
      · exact hlt
      · exact Nat.lt_trans (hnested a ha) hlt
  intro u hu
  obtain ⟨i, hi⟩ := List.mem_iff_getElem?.1 hu
  exact hnumbered i u hi

namespace Collector

variable {c : CollectionContext} {R : Target → Target → Prop} {collector collector' : Collector}

/-- The targets of a group precede the collector. -/
theorem id_lt_of_precedes {group : FieldGroup} (h : group.Precedes collector) :
    ∀ t ∈ group.reached, t.id < collector.nextUsage := by
  intro t ht
  cases t with
  | initial => exact h.1
  | deferred u => exact h.2 u ht

/-- What is collected from targets that are nested is grounded. -/
private theorem Gives.grounded {reached : List Target} {parent : TargetSet} {outcome : Except CollectionError Unit × CollectionWalk}
    {collected : CollectedFields}
    (h : collector.Gives reached parent (collector.finish parent outcome).1 (collector.finish parent outcome).2)
    (hreached : ∀ t ∈ reached, t.id < collector.nextUsage ∧ t.Nested)
    (hcollected : (collector.finish parent outcome).1 = .ok collected) : ∀ field ∈ collected.allFields, field.2.Grounded := by
  have hfits := h.fits collected hcollected
  intro field hfield
  refine ⟨?_, fun t ht => ?_⟩
  · obtain ⟨result, walk⟩ := outcome
    cases result with
    | error e => exact absurd hcollected (by simp [finish])
    | ok =>
      cases hcollected
      exact Occurrence.targets_subset_of_partition hfield
  · rcases hfits.reaches field hfield t ht with ht | ⟨u, hu, rfl⟩
    · exact (hreached t ht).2
    · exact hfits.usages.nested hreached u hu

/-- What is collected for an operation is grounded. -/
theorem grounded_collectFields {objectType : String} {selections : List Selection} {collected : CollectedFields}
    (hpositive : 0 < collector.nextUsage) (h : (collector.collectFields c objectType selections).1 = .ok collected) :
    ∀ field ∈ collected.allFields, field.2.Grounded := by
  refine (collector.collectFields_gives c objectType selections).grounded (fun t ht => ?_) h
  rw [List.mem_singleton.1 ht]
  exact ⟨hpositive, fun a ha => absurd ha List.not_mem_nil⟩

/-- What is collected below a group that is grounded is grounded. -/
theorem grounded_collectBelow {group : FieldGroup} {objectType : String} {collected : CollectedFields}
    (hgroup : group.Grounded) (hprecedes : group.Precedes collector)
    (h : (collector.collectBelow c objectType group).1 = .ok collected) :
    ∀ field ∈ collected.allFields, field.2.Grounded :=
  (collector.collectBelow_gives c objectType group).grounded
    (fun t ht => ⟨id_lt_of_precedes hprecedes t ht, hgroup.nested t ht⟩) h

private theorem finish_alike {m m' : CollectM Unit} {parent parent' : TargetSet} (hR : Target.Matching R)
    (hbelow : Target.Below collector.nextUsage collector'.nextUsage R)
    (hparent : List.Forall₂ R parent.targets parent'.targets)
    (h : CollectM.Alike R m { nextUsage := collector.nextUsage } m' { nextUsage := collector'.nextUsage }
      fun _ _ _ _ _ => True) :
    CollectedFields.Alike (collector.finish parent (m.run.run { nextUsage := collector.nextUsage })).1
      (collector'.finish parent' (m'.run.run { nextUsage := collector'.nextUsage })).1 := by
  have hwalks := h ⟨.nil, .nil, rfl, hR, hbelow⟩
  rcases hm : m.run.run { nextUsage := collector.nextUsage } with ⟨r, w⟩
  rcases hm' : m'.run.run { nextUsage := collector'.nextUsage } with ⟨r', w'⟩
  rw [hm, hm'] at hwalks
  rcases hwalks with ⟨e, rfl, rfl⟩ | ⟨_, _, S, rfl, rfl, hle, hw, -⟩
  · trivial
  · show GroupedFieldSet.Alike (Occurrence.groups w.met parent _ (Occurrence.keysOf w.met parent))
      (Occurrence.groups w'.met parent' _ (Occurrence.keysOf w'.met parent'))
    have hparentS := hparent.imp fun _ _ ht => hle ht
    have hkeys := Occurrence.keysOf_eq hw.met hw.matching hparentS
    have hkeysOf : ∀ {met parent key}, key ∈ Occurrence.keysOf met parent → Occurrence.maskingSet met key = parent :=
      fun hkey => by simpa using (List.mem_filter.1 hkey).2
    rw [← hkeys]
    exact Occurrence.groups_alike hw.met hw.matching hparentS _ _ fun key hkey => ⟨hkeysOf hkey, hkeysOf (hkeys ▸ hkey)⟩

/-- What is collected for an operation is like itself. -/
theorem collectFields_alike (collector : Collector) (hpositive : 0 < collector.nextUsage) (objectType : String)
    (selections : List Selection) :
    CollectedFields.Alike (collector.collectFields c objectType selections).1
      (collector.collectFields c objectType selections).1 := by
  have hinitial : Target.Matching fun t t' => (t = t' ∧ t.Nested) ∧ t = .initial := Target.Matching.refl.mono And.left
  have hrefl : (Target.initial = .initial ∧ Target.initial.Nested) ∧ Target.initial = .initial :=
    ⟨⟨rfl, fun a ha => absurd ha List.not_mem_nil⟩, rfl⟩
  have hbelow : Target.Below collector.nextUsage collector.nextUsage fun t t' => (t = t' ∧ t.Nested) ∧ t = .initial := by
    rintro _ _ ⟨⟨rfl, -⟩, rfl⟩
    exact ⟨hpositive, hpositive⟩
  refine finish_alike hinitial hbelow (.cons hrefl .nil) ?_
  exact c.alike_walk objectType (c.depthBound selections) hrefl selections

/-- Below groups that are alike, fields are collected that are alike. -/
theorem collectBelow_alike {group group' : FieldGroup} (h : group.Alike group') (hprecedes : group.Precedes collector)
    (hprecedes' : group'.Precedes collector') (objectType : String) :
    CollectedFields.Alike (collector.collectBelow c objectType group).1 (collector'.collectBelow c objectType group').1 := by
  obtain ⟨htargets, htargets', R, hR, hparent, hfields⟩ := h
  -- only the targets of the groups count
  let S : Target → Target → Prop := fun t t' => R t t' ∧ t ∈ group.reached ∧ t' ∈ group'.reached
  have hfieldsS : List.Forall₂ (FieldDetails.Alike S) group.fields group'.fields := by
    have hmem := ((List.forall₂_and_left _ _).2 ⟨fun d hd => hd, hfields⟩).flip
    have hmem' := ((List.forall₂_and_left _ _).2 ⟨fun d hd => hd, hmem⟩).flip
    exact hmem'.imp fun d d' ⟨hd', hd, hnode, ht⟩ => ⟨hnode, ht, List.mem_map_of_mem hd, List.mem_map_of_mem hd'⟩
  have hparentS : List.Forall₂ S group.targets.targets group'.targets.targets := by
    have hmem := ((List.forall₂_and_left _ _).2 ⟨fun t ht => htargets ht, hparent⟩).flip
    have hmem' := ((List.forall₂_and_left _ _).2 ⟨fun t ht => htargets' ht, hmem⟩).flip
    exact hmem'.imp fun t t' ⟨ht', ht, hR⟩ => ⟨hR, ht, ht'⟩
  have hbelow : Target.Below collector.nextUsage collector'.nextUsage S := fun ⟨_, ht, ht'⟩ =>
    ⟨id_lt_of_precedes hprecedes _ ht, id_lt_of_precedes hprecedes' _ ht'⟩
  unfold collectBelow
  exact finish_alike (hR.mono And.left) hbelow hparentS (c.alike_below objectType hfieldsS)

end Collector

end GraphQL
