import GraphQL.Proofs.Collection.Sorting
import GraphQL.Proofs.Requests
import Mathlib.Data.List.Nodup

/-!
# Fields that are not deferred

A field that is reached without `@defer` belongs to the initial result, unless a fragment that it is reached through was
followed before inside a deferred fragment: a walk follows a fragment without `@defer` only once, wherever it comes to
it first.  `CollectionContext.Visits` says in which order a walk follows fragments and which of them it finds inside
deferred ones, and `Collector.mem_keys_collectFields` which keys belong to the initial result then.
-/

namespace GraphQL

namespace CollectionContext

/-! ### Selections and what lies below them -/

/-- The directives do not leave a selection out. -/
def Includes (c : CollectionContext) (directives : List Directive) : Prop :=
  isIncluded c.schema directives c.vars = .ok true

/-- The directives defer a fragment or not. -/
def Defers (c : CollectionContext) (directives : List Directive) (deferred : Bool) : Prop :=
  ∃ d?, (if c.incremental then deferOf? c.schema directives c.vars else .ok none) = .ok d? ∧ deferred = d?.isSome

/-- A fragment is followed for an object type, deferred or not; it has a name if it is spread. -/
inductive Enters (c : CollectionContext) (objectType : String) :
    Selection → (deferred : Bool) → (name? : Option String) → List Selection → Prop
  | inline {node deferred} (hincluded : c.Includes node.directives) (hdefer : c.Defers node.directives deferred)
      (hcondition : c.conditionHolds node.typeCondition objectType = true) :
      Enters c objectType (.inline node) deferred none node.selectionSet.selections
  | spread {node fragment deferred} (hincluded : c.Includes node.directives)
      (hdefer : c.Defers node.directives deferred) (hfragment : c.document.fragment? node.name.value = some fragment)
      (hcondition : c.conditionHolds (some fragment.typeCondition) objectType = true) :
      Enters c objectType (.spread node) deferred (some node.name.value) fragment.selectionSet.selections

theorem Enters.not_field {c : CollectionContext} {objectType : String} {node : FieldOf Selection} {deferred : Bool}
    {name? : Option String} {below : List Selection} : ¬ c.Enters objectType (.field node) deferred name? below := by
  intro h
  cases h

/-- The key is reached through fragments none of which is deferred, with the names of those that are spread. -/
inductive ReachedPlainly (c : CollectionContext) (objectType : String) :
    List Selection → (names : List String) → (key : String) → Prop
  | field {selections node} (h : .field node ∈ selections) (hincluded : c.Includes node.directives) :
      ReachedPlainly c objectType selections [] node.responseKey
  | inside {selections selection name? below names key} (h : selection ∈ selections)
      (henters : c.Enters objectType selection false name? below)
      (hbelow : ReachedPlainly c objectType below names key) :
      ReachedPlainly c objectType selections (name?.toList ++ names) key

/-- A walk through selections follows fragments without `@defer` that it has not visited, and those with `@defer`
always.  With each fragment that it visits, the latest first, stands whether that was inside a deferred one. -/
inductive Visits (c : CollectionContext) (objectType : String) :
    (inside : Bool) → List Selection → (before after : List (String × Bool)) → Prop
  | nil {inside before} : Visits c objectType inside [] before before
  | pass {inside selection rest before after}
      (h : ∀ deferred name? below, c.Enters objectType selection deferred name? below →
        deferred = false ∧ ∃ name, name? = some name ∧ name ∈ before.map Prod.fst)
      (hrest : Visits c objectType inside rest before after) :
      Visits c objectType inside (selection :: rest) before after
  | plain {inside selection name? below rest before between after}
      (henters : c.Enters objectType selection false name? below)
      (hnew : ∀ name, name? = some name → name ∉ before.map Prod.fst)
      (hbelow : Visits c objectType inside below (name?.toList.map (·, inside) ++ before) between)
      (hrest : Visits c objectType inside rest between after) :
      Visits c objectType inside (selection :: rest) before after
  | deferred {inside selection name? below rest before between after}
      (henters : c.Enters objectType selection true name? below)
      (hbelow : Visits c objectType true below before between)
      (hrest : Visits c objectType inside rest between after) :
      Visits c objectType inside (selection :: rest) before after

end CollectionContext

/-! ### Steps that succeed -/

/-- If the step succeeds, its outcome and the walk after it have a property. -/
def CollectM.Yields {α : Type} (m : CollectM α) (w : CollectionWalk) (Q : α → CollectionWalk → Prop) : Prop :=
  ∀ a, (m.run.run w).1 = .ok a → Q a (m.run.run w).2

namespace CollectM.Yields

variable {α β : Type} {w : CollectionWalk} {Q Q' : α → CollectionWalk → Prop}

theorem imp {m : CollectM α} (h : Yields m w Q) (himp : ∀ a w', Q a w' → Q' a w') : Yields m w Q' :=
  fun a ha => himp _ _ (h a ha)

theorem pure {a : α} (h : Q a w) : Yields (Pure.pure a) w Q := by
  intro b heq
  cases heq
  exact h

theorem throw {e : CollectionError} : Yields (MonadExcept.throw e : CollectM α) w Q :=
  fun b heq => absurd heq (by rintro ⟨⟩)

theorem bind {m : CollectM α} {k : α → CollectM β} {R : β → CollectionWalk → Prop}
    (h : Yields m w fun a w' => Yields (k a) w' R) : Yields (m >>= k) w R := by
  intro b hb
  rw [CollectM.run_bind] at hb ⊢
  rcases hm : m.run.run w with ⟨r, w'⟩
  rw [hm] at hb
  cases r with
  | error e => exact absurd hb (by simp)
  | ok a =>
    have hk := h a (by rw [hm])
    rw [hm] at hk
    exact hk b hb

theorem get {Q : CollectionWalk → CollectionWalk → Prop} (h : Q w w) : Yields MonadState.get w Q := by
  intro a heq
  cases heq
  exact h

theorem modify {f : CollectionWalk → CollectionWalk} {Q : PUnit → CollectionWalk → Prop} (h : Q ⟨⟩ (f w)) :
    Yields (modify f) w Q :=
  fun _ _ => h

end CollectM.Yields

namespace CollectionContext

open CollectM

variable {c : CollectionContext} {objectType : String} {w w' : CollectionWalk}

theorem yields_included (directives : List Directive) :
    Yields (c.included directives) w fun b w' => w' = w ∧ isIncluded c.schema directives c.vars = .ok b := by
  unfold included
  split
  · rename_i b h
    exact Yields.pure ⟨rfl, h⟩
  · exact Yields.throw

theorem yields_deferred? (directives : List Directive) :
    Yields (c.deferred? directives) w fun d? w' => w' = w ∧ c.Defers directives d?.isSome := by
  unfold deferred?
  split
  · rename_i hoff
    exact Yields.pure ⟨rfl, none, if_neg (by simpa using hoff), rfl⟩
  · rename_i hon
    have hon : c.incremental = true := by simpa using hon
    split
    · exact Yields.throw
    · rename_i h
      exact Yields.pure ⟨rfl, none, by rw [if_pos hon, h], rfl⟩
    · rename_i d h
      split
      · exact Yields.throw
      · exact Yields.pure ⟨rfl, some d, by rw [if_pos hon, h], rfl⟩

theorem Defers.unique {directives : List Directive} {b b' : Bool} (h : c.Defers directives b)
    (h' : c.Defers directives b') : b = b' := by
  obtain ⟨d?, hd, rfl⟩ := h
  obtain ⟨d?', hd', rfl⟩ := h'
  rw [hd] at hd'
  cases hd'
  rfl

/-- What a step through a selection comes to: it notes a field, passes by, or follows a fragment. -/
inductive Steps (c : CollectionContext) (objectType : String) (target : Target) (w : CollectionWalk) :
    Selection → Option (List Selection × Target) → CollectionWalk → Prop
  | field {node} (h : c.Includes node.directives) :
      Steps c objectType target w (.field node) none { w with met := w.met ++ [⟨node.responseKey, target, node⟩] }
  | pass {selection} (hfield : ∀ node, selection = .field node → ¬ c.Includes node.directives)
      (h : ∀ deferred name? below, c.Enters objectType selection deferred name? below →
        deferred = false ∧ ∃ name, name? = some name ∧ name ∈ w.visited) :
      Steps c objectType target w selection none w
  | plain {selection name? below} (henters : c.Enters objectType selection false name? below)
      (hnew : ∀ name, name? = some name → name ∉ w.visited) :
      Steps c objectType target w selection (some (below, target)) { w with visited := name?.toList ++ w.visited }
  | deferred {selection name? below usage} (henters : c.Enters objectType selection true name? below)
      (hid : usage.id = w.nextUsage) (haround : usage.ancestors = target.id :: target.ancestors) :
      Steps c objectType target w selection (some (below, .deferred usage))
        { w with nextUsage := w.nextUsage + 1, newUsages := w.newUsages ++ [usage] }

theorem yields_targetWithin (defer : Option DeferDirective) (target : Target) :
    Yields (targetWithin defer target) w fun t w' =>
      (defer = none ∧ t = target ∧ w' = w) ∨
        (defer.isSome ∧ ∃ usage, t = .deferred usage ∧ usage.id = w.nextUsage ∧
          usage.ancestors = target.id :: target.ancestors ∧
          w' = { w with nextUsage := w.nextUsage + 1, newUsages := w.newUsages ++ [usage] }) := by
  unfold targetWithin
  split
  · exact Yields.pure (.inl ⟨rfl, rfl, rfl⟩)
  · refine Yields.bind (Yields.get (Yields.bind (Yields.modify (f := fun _ => _) (Yields.pure (.inr ?_)))))
    exact ⟨rfl, _, rfl, rfl, rfl, rfl⟩

theorem yields_step (target : Target) (selection : Selection) :
    Yields (c.step objectType target selection) w fun below? w' => c.Steps objectType target w selection below? w' := by
  have hnot : ∀ {directives}, isIncluded c.schema directives c.vars = .ok false → ¬ c.Includes directives := by
    intro directives hfalse htrue
    rw [Includes, hfalse] at htrue
    exact absurd htrue (by simp)
  unfold step
  cases selection with
  | field node =>
    refine Yields.bind ((yields_included node.directives).imp ?_)
    rintro b w ⟨rfl, hincluded⟩
    cases b with
    | true => exact Yields.bind (Yields.modify (Yields.pure (.field hincluded)))
    | false =>
      refine Yields.pure (.pass (fun node' heq => ?_) fun _ _ _ henters => absurd henters Enters.not_field)
      cases heq
      exact hnot hincluded
  | inline node =>
    have hpass : (∀ deferred, ¬ c.Enters objectType (.inline node) deferred none node.selectionSet.selections) →
        c.Steps objectType target w (.inline node) none w :=
      fun h => .pass (fun _ heq => by cases heq) fun deferred name? below henters => by
        cases henters with
        | inline h₁ h₂ h₃ => exact absurd (.inline h₁ h₂ h₃) (h deferred)
    refine Yields.bind ((yields_included node.directives).imp ?_)
    rintro b w ⟨rfl, hincluded⟩
    split
    · rename_i hout
      refine Yields.pure (hpass fun deferred henters => ?_)
      cases henters with
      | inline h₁ _ h₃ =>
        rw [Includes, hincluded] at h₁
        cases h₁
        exact absurd hout (by simp [h₃])
    · rename_i hin
      have hin : b = true ∧ c.conditionHolds node.typeCondition objectType = true := by simpa using hin
      obtain ⟨rfl, hcondition⟩ := hin
      refine Yields.bind ((yields_deferred? node.directives).imp ?_)
      rintro defer w ⟨rfl, hdefer⟩
      refine Yields.bind ((yields_targetWithin defer target).imp ?_)
      rintro t w' (⟨rfl, rfl, rfl⟩ | ⟨hsome, usage, rfl, hid, haround, rfl⟩)
      · exact Yields.pure (.plain (.inline hincluded hdefer hcondition) (by simp))
      · rw [hsome] at hdefer
        exact Yields.pure (.deferred (.inline hincluded hdefer hcondition) hid haround)
  | spread node =>
    have hpass : (∀ deferred (fragment : Fragment), c.Includes node.directives → c.Defers node.directives deferred →
          c.document.fragment? node.name.value = some fragment →
          c.conditionHolds (some fragment.typeCondition) objectType = true →
            deferred = false ∧ node.name.value ∈ w.visited) →
        c.Steps objectType target w (.spread node) none w :=
      fun h => .pass (fun _ heq => by cases heq) fun deferred name? below henters => by
        cases henters with
        | spread h₁ h₂ h₃ h₄ =>
          obtain ⟨hplain, hmem⟩ := h deferred _ h₁ h₂ h₃ h₄
          exact ⟨hplain, _, rfl, hmem⟩
    refine Yields.bind ((yields_included node.directives).imp ?_)
    rintro b w ⟨rfl, hincluded⟩
    cases b with
    | false =>
      exact Yields.pure (hpass fun _ _ hincludes => absurd hincludes (hnot hincluded))
    | true =>
      refine Yields.bind ((yields_deferred? node.directives).imp ?_)
      rintro defer w ⟨rfl, hdefer⟩
      refine Yields.bind (Yields.get ?_)
      split
      · rename_i hvisited
        have hvisited : defer = none ∧ node.name.value ∈ w.visited := by simpa using hvisited
        rw [hvisited.1] at hdefer
        exact Yields.pure (hpass fun _ _ _ hdefers _ _ => ⟨hdefers.unique hdefer, hvisited.2⟩)
      · rename_i hnew
        split
        · rename_i hfragment
          exact Yields.pure (hpass fun _ _ _ _ hsome _ => absurd (hfragment.symm.trans hsome) (by simp))
        · rename_i fragment hfragment
          split
          · rename_i hcondition
            refine Yields.pure (hpass fun _ fragment' _ _ hsome hholds => ?_)
            obtain rfl : fragment = fragment' := Option.some.inj (hfragment.symm.trans hsome)
            exact absurd hholds (by simpa using hcondition)
          · rename_i hcondition
            have hcondition : c.conditionHolds (some fragment.typeCondition) objectType = true := by
              simpa using hcondition
            cases defer with
            | none =>
              have hnew : node.name.value ∉ w.visited := by simpa using hnew
              refine Yields.bind (Yields.modify ?_)
              refine Yields.bind ((yields_targetWithin none target).imp ?_)
              rintro t w' (⟨-, rfl, rfl⟩ | ⟨hsome, -⟩)
              · exact Yields.pure (.plain (.spread hincluded hdefer hfragment hcondition) (by simpa using hnew))
              · exact absurd hsome (by simp)
            | some d =>
              refine Yields.bind ((yields_targetWithin (some d) target).imp ?_)
              rintro t w' (⟨hnone, -⟩ | ⟨-, usage, rfl, hid, haround, rfl⟩)
              · exact absurd hnone (by simp)
              · exact Yields.pure (.deferred (.spread hincluded hdefer hfragment hcondition) hid haround)

/-! ### Walks that succeed -/

/-- A selection stands among selections, or in an inline fragment among them that is not deferred. -/
inductive Amid (c : CollectionContext) (objectType : String) : List Selection → Selection → Prop
  | here {selections selection} (h : selection ∈ selections) : Amid c objectType selections selection
  | inline {selections fragment below selection} (h : fragment ∈ selections)
      (henters : c.Enters objectType fragment false none below) (hbelow : Amid c objectType below selection) :
      Amid c objectType selections selection

/-- Fields and fragments amid selections were met in the initial result and visited. -/
structure Explored (c : CollectionContext) (objectType : String) (w : CollectionWalk) (selections : List Selection) :
    Prop where
  fields : ∀ node, c.Amid objectType selections (.field node) → c.Includes node.directives →
    ∃ o ∈ w.met, o.target = .initial ∧ o.key = node.responseKey
  spreads : ∀ selection name below, c.Amid objectType selections selection →
    c.Enters objectType selection false (some name) below → name ∈ w.visited

theorem Enters.fragment? {selection : Selection} {b : Bool} {name : String} {below : List Selection}
    (h : c.Enters objectType selection b (some name) below) :
    (c.document.fragment? name).map (·.selectionSet.selections) = some below := by
  cases h with
  | spread _ _ hfragment => rw [hfragment, Option.map_some]

theorem Explored.mono {selections : List Selection} (h : c.Explored objectType w selections) (hmet : w.met ⊆ w'.met)
    (hvisited : w.visited ⊆ w'.visited) : c.Explored objectType w' selections where
  fields node hnode hincluded := by
    obtain ⟨o, ho, hrest⟩ := h.fields node hnode hincluded
    exact ⟨o, hmet ho, hrest⟩
  spreads selection name below hselection henters := hvisited (h.spreads selection name below hselection henters)

/-- What a walk through selections leads to, with the fragments that it visits. -/
structure Walked (c : CollectionContext) (objectType : String) (target : Target) (selections : List Selection)
    (w : CollectionWalk) (visits : List (String × Bool)) (w' : CollectionWalk) (visits' : List (String × Bool)) :
    Prop where
  order : c.Visits objectType (decide (target ≠ .initial)) selections visits visits'
  names : visits'.map Prod.fst = w'.visited
  nodup : w'.visited.Nodup
  metBefore : w.met ⊆ w'.met
  visitsBefore : visits ⊆ visits'
  inside : target ≠ .initial → ∀ v ∈ visits', v ∈ visits ∨ v.2 = true
  met : ∀ o ∈ w'.met, o.target = .initial → o ∈ w.met ∨ target = .initial ∧
    ∃ names, c.ReachedPlainly objectType selections names o.key ∧ ∀ name ∈ names, (name, false) ∈ visits'
  explored : target = .initial → c.Explored objectType w' selections
  fragments : ∀ selection name below, (name, false) ∈ visits' →
    c.Enters objectType selection false (some name) below → (name, false) ∈ visits ∨ c.Explored objectType w' below

theorem Walked.nil {target : Target} {visits : List (String × Bool)} (hnames : visits.map Prod.fst = w.visited)
    (hnodup : w.visited.Nodup) : c.Walked objectType target [] w visits w visits where
  order := .nil
  names := hnames
  nodup := hnodup
  metBefore := List.Subset.refl _
  visitsBefore := List.Subset.refl _
  inside _ _ hv := .inl hv
  met _ ho _ := .inl ho
  explored _ := by
    have hnone : ∀ {selection}, ¬ c.Amid objectType [] selection := by
      intro selection h
      cases h <;> exact absurd ‹_ ∈ []› (by simp)
    exact ⟨fun _ h => absurd h hnone, fun _ _ _ h => absurd h hnone⟩
  fragments _ _ _ hname _ := .inl hname

/-- First a selection is left alone, or followed; then the others. -/
theorem Explored.cons {selection : Selection} {rest : List Selection}
    (hfield : ∀ node, selection = .field node → c.Includes node.directives →
      ∃ o ∈ w.met, o.target = .initial ∧ o.key = node.responseKey)
    (hspread : ∀ name below, c.Enters objectType selection false (some name) below → name ∈ w.visited)
    (hinline : ∀ below, c.Enters objectType selection false none below → c.Explored objectType w below)
    (hrest : c.Explored objectType w rest) : c.Explored objectType w (selection :: rest) := by
  constructor
  · intro node hnode hincluded
    cases hnode with
    | here h =>
      rcases List.mem_cons.1 h with heq | h
      · exact hfield node heq.symm hincluded
      · exact hrest.fields node (.here h) hincluded
    | inline h henters hbelow =>
      rcases List.mem_cons.1 h with rfl | h
      · exact (hinline _ henters).fields node hbelow hincluded
      · exact hrest.fields node (.inline h henters hbelow) hincluded
  · intro selection' name below hselection hname
    cases hselection with
    | here h =>
      rcases List.mem_cons.1 h with rfl | h
      · exact hspread name below hname
      · exact hrest.spreads selection' name below (.here h) hname
    | inline h henters hbelow =>
      rcases List.mem_cons.1 h with rfl | h
      · exact (hinline _ henters).spreads selection' name below hbelow hname
      · exact hrest.spreads selection' name below (.inline h henters hbelow) hname

theorem ReachedPlainly.cons {selection : Selection} {rest : List Selection} {names : List String} {key : String}
    (h : c.ReachedPlainly objectType rest names key) : c.ReachedPlainly objectType (selection :: rest) names key := by
  cases h with
  | field h hincluded => exact .field (List.mem_cons_of_mem _ h) hincluded
  | inside h henters hbelow => exact .inside (List.mem_cons_of_mem _ h) henters hbelow

/-- First a fragment that is not deferred is followed, then the other selections. -/
theorem Walked.plain {target : Target} {selection : Selection} {name? : Option String} {below rest : List Selection}
    {visits visits₂ visits' : List (String × Bool)} {w₂ : CollectionWalk}
    (henters : c.Enters objectType selection false name? below)
    (hnew : ∀ name, name? = some name → name ∉ visits.map Prod.fst)
    (hbelow : c.Walked objectType target below { w with visited := name?.toList ++ w.visited }
      (name?.toList.map (·, decide (target ≠ .initial)) ++ visits) w₂ visits₂)
    (hrest : c.Walked objectType target rest w₂ visits₂ w' visits') :
    c.Walked objectType target (selection :: rest) w visits w' visits' := by
  have hvisited₂ : w₂.visited ⊆ w'.visited := by
    rw [← hbelow.names, ← hrest.names]
    exact List.map_subset _ hrest.visitsBefore
  have hname : ∀ name, name? = some name → (name, decide (target ≠ .initial)) ∈ visits' := by
    rintro name rfl
    exact hrest.visitsBefore (hbelow.visitsBefore (List.mem_append_left _ (by simp)))
  have hexplored : target = .initial → c.Explored objectType w' below := fun htarget =>
    (hbelow.explored htarget).mono hrest.metBefore hvisited₂
  refine ⟨.plain henters hnew hbelow.order hrest.order, hrest.names, hrest.nodup, ?_, ?_, ?_, ?_, ?_, ?_⟩
  · exact List.Subset.trans hbelow.metBefore hrest.metBefore
  · exact List.Subset.trans (List.subset_append_right _ _) (List.Subset.trans hbelow.visitsBefore hrest.visitsBefore)
  · intro htarget v hv
    rcases hrest.inside htarget v hv with hv | hv
    · rcases hbelow.inside htarget v hv with hv | hv
      · rcases List.mem_append.1 hv with hv | hv
        · obtain ⟨name, -, rfl⟩ := List.mem_map.1 hv
          exact .inr (by simpa using htarget)
        · exact .inl hv
      · exact .inr hv
    · exact .inr hv
  · intro o ho hinitial
    rcases hrest.met o ho hinitial with ho | ⟨htarget, names, hreached, hvisits⟩
    · rcases hbelow.met o ho hinitial with ho | ⟨htarget, names, hreached, hvisits⟩
      · exact .inl ho
      · refine .inr ⟨htarget, _, .inside List.mem_cons_self henters hreached, fun name hmem => ?_⟩
        rcases List.mem_append.1 hmem with hmem | hmem
        · have hvisit := hname name (by simpa using hmem)
          rw [decide_eq_false (by simpa using htarget)] at hvisit
          exact hvisit
        · exact hrest.visitsBefore (hvisits name hmem)
    · exact .inr ⟨htarget, names, hreached.cons, hvisits⟩
  · intro htarget
    refine Explored.cons (fun node heq => ?_) (fun name below' hspread => ?_) (fun below' hinline => ?_)
      (hrest.explored htarget)
    · subst heq
      exact absurd henters Enters.not_field
    · obtain rfl : name? = some name := by
        cases henters <;> cases hspread
        rfl
      rw [← hrest.names]
      exact List.mem_map.2 ⟨_, hname name rfl, rfl⟩
    · obtain ⟨rfl⟩ : below = below' := by
        cases henters <;> cases hinline
        rfl
      exact hexplored htarget
  · intro selection' name below' hvisit hspread
    rcases hrest.fragments selection' name below' hvisit hspread with hvisit | hdone
    · rcases hbelow.fragments selection' name below' hvisit hspread with hvisit | hdone
      · rcases List.mem_append.1 hvisit with hvisit | hvisit
        · obtain ⟨name', hmem, heq⟩ := List.mem_map.1 hvisit
          obtain ⟨rfl, hinside⟩ := Prod.mk.inj heq
          obtain rfl : name? = some name' := by simpa using hmem
          have htarget : target = .initial := by simpa using hinside
          have hsame := henters.fragment?.symm.trans hspread.fragment?
          obtain rfl := Option.some.inj hsame
          exact .inr (hexplored htarget)
        · exact .inl hvisit
      · exact .inr (hdone.mono hrest.metBefore hvisited₂)
    · exact .inr hdone

/-- First a deferred fragment is followed, then the other selections. -/
theorem Walked.deferred {target : Target} {selection : Selection} {name? : Option String} {below rest : List Selection}
    {visits visits₂ visits' : List (String × Bool)} {usage : DeferUsage} {w₁ w₂ : CollectionWalk}
    (henters : c.Enters objectType selection true name? below) (hmet : w₁.met = w.met)
    (hbelow : c.Walked objectType (.deferred usage) below w₁ visits w₂ visits₂)
    (hrest : c.Walked objectType target rest w₂ visits₂ w' visits') :
    c.Walked objectType target (selection :: rest) w visits w' visits' := by
  have hvisited₂ : w₂.visited ⊆ w'.visited := by
    rw [← hbelow.names, ← hrest.names]
    exact List.map_subset _ hrest.visitsBefore
  have hplain : ∀ {name? below}, ¬ c.Enters objectType selection false name? below := by
    intro name?' below' hplain
    have hdefers : ∀ {directives}, c.Defers directives true → ¬ c.Defers directives false :=
      fun h h' => absurd (h.unique h') (by simp)
    cases henters with
    | inline _ hdefer =>
      cases hplain with
      | inline _ hdefer' => exact hdefers hdefer hdefer'
    | spread _ hdefer =>
      cases hplain with
      | spread _ hdefer' => exact hdefers hdefer hdefer'
  refine ⟨.deferred henters hbelow.order hrest.order, hrest.names, hrest.nodup, ?_, ?_, ?_, ?_, ?_, ?_⟩
  · rw [← hmet]
    exact List.Subset.trans hbelow.metBefore hrest.metBefore
  · exact List.Subset.trans hbelow.visitsBefore hrest.visitsBefore
  · intro htarget v hv
    rcases hrest.inside htarget v hv with hv | hv
    · exact hbelow.inside (by simp) v hv
    · exact .inr hv
  · intro o ho hinitial
    rcases hrest.met o ho hinitial with ho | ⟨htarget, names, hreached, hvisits⟩
    · rcases hbelow.met o ho hinitial with ho | ⟨htarget, -⟩
      · exact .inl (hmet ▸ ho)
      · exact absurd htarget (by simp)
    · exact .inr ⟨htarget, names, hreached.cons, hvisits⟩
  · intro htarget
    refine Explored.cons (fun node heq => ?_) (fun _ _ h => absurd h hplain) (fun _ h => absurd h hplain)
      (hrest.explored htarget)
    subst heq
    exact absurd henters Enters.not_field
  · intro selection' name below' hvisit hspread
    rcases hrest.fragments selection' name below' hvisit hspread with hvisit | hdone
    · exact (hbelow.fragments selection' name below' hvisit hspread).imp_right (·.mono hrest.metBefore hvisited₂)
    · exact .inr hdone

/-- A walk that succeeds visits fragments in order, and meets in the initial result what it reaches there. -/
theorem yields_walk (depth : Nat) (target : Target) (selections : List Selection) {visits : List (String × Bool)}
    (hnames : visits.map Prod.fst = w.visited) (hnodup : w.visited.Nodup) :
    Yields (c.walk objectType depth target selections) w fun _ w' =>
      ∃ visits', c.Walked objectType target selections w visits w' visits' := by
  induction depth generalizing w target selections visits with
  | zero => exact Yields.throw
  | succ depth ih =>
    unfold walk
    rw [List.forM_eq_forM]
    induction selections generalizing w visits with
    | nil => exact Yields.pure ⟨visits, .nil hnames hnodup⟩
    | cons selection rest ihrest =>
      rw [List.forM_cons, bind_assoc]
      refine Yields.bind ((yields_step target selection).imp fun below? w₁ hstep => ?_)
      cases hstep with
      | @field node hincluded =>
        refine Yields.bind (Yields.pure ((ihrest (w := { w with met := w.met ++ [_] }) hnames hnodup).imp ?_))
        rintro - w' ⟨visits', h⟩
        refine ⟨visits', .pass (fun _ _ _ henters => absurd henters Enters.not_field) h.order, h.names, h.nodup, ?_,
          h.visitsBefore, h.inside, ?_, ?_, h.fragments⟩
        · exact List.Subset.trans (List.subset_append_left _ _) h.metBefore
        · intro o ho hinitial
          rcases h.met o ho hinitial with ho | ⟨htarget, names, hreached, hvisits⟩
          · rcases List.mem_append.1 ho with ho | ho
            · exact .inl ho
            · rw [List.mem_singleton.1 ho] at hinitial ⊢
              exact .inr ⟨hinitial, [], .field List.mem_cons_self hincluded, by simp⟩
          · exact .inr ⟨htarget, names, hreached.cons, hvisits⟩
        · intro htarget
          refine Explored.cons (fun node' heq _ => ?_) (fun _ _ henters => absurd henters Enters.not_field)
            (fun _ henters => absurd henters Enters.not_field) (h.explored htarget)
          cases heq
          exact ⟨_, h.metBefore (List.mem_append_right _ (List.mem_singleton_self _)), htarget, rfl⟩
      | pass hfield hpass =>
        refine Yields.bind (Yields.pure ((ihrest hnames hnodup).imp ?_))
        rintro - w' ⟨visits', h⟩
        have hvisited : w.visited ⊆ w'.visited := by
          rw [← hnames, ← h.names]
          exact List.map_subset _ h.visitsBefore
        refine ⟨visits', .pass (by rw [hnames]; exact hpass) h.order, h.names, h.nodup, h.metBefore, h.visitsBefore,
          h.inside, ?_, ?_, h.fragments⟩
        · intro o ho hinitial
          rcases h.met o ho hinitial with ho | ⟨htarget, names, hreached, hvisits⟩
          · exact .inl ho
          · exact .inr ⟨htarget, names, hreached.cons, hvisits⟩
        · intro htarget
          refine Explored.cons (fun node heq hincluded => absurd hincluded (hfield node heq)) (fun name below henters => ?_)
            (fun below henters => ?_) (h.explored htarget)
          · obtain ⟨-, name', heq, hmem⟩ := hpass _ _ _ henters
            cases heq
            exact hvisited hmem
          · obtain ⟨-, name', heq, -⟩ := hpass _ _ _ henters
            exact absurd heq (by simp)
      | @plain _ name? below henters hnew =>
        have hnames₁ : (name?.toList.map (·, decide (target ≠ .initial)) ++ visits).map Prod.fst =
            name?.toList ++ w.visited := by
          rw [List.map_append, List.map_map, hnames]
          exact congrArg (· ++ _) (List.map_id _)
        have hnodup₁ : (name?.toList ++ w.visited).Nodup := by
          cases name? with
          | none => exact hnodup
          | some name => exact List.nodup_cons.2 ⟨hnew name rfl, hnodup⟩
        refine Yields.bind ((ih (w := { w with visited := _ }) target below hnames₁ hnodup₁).imp ?_)
        rintro - w₂ ⟨visits₂, h₂⟩
        refine (ihrest h₂.names h₂.nodup).imp ?_
        rintro - w' ⟨visits', h⟩
        exact ⟨visits', h₂.plain henters (by rw [hnames]; exact hnew) h⟩
      | @deferred _ name? below usage henters =>
        refine Yields.bind ((ih (w := { w with nextUsage := w.nextUsage + 1, newUsages := w.newUsages ++ [usage] })
          (.deferred usage) below hnames hnodup).imp ?_)
        rintro - w₂ ⟨visits₂, h₂⟩
        refine (ihrest h₂.names h₂.nodup).imp ?_
        rintro - w' ⟨visits', h⟩
        exact ⟨visits', .deferred henters (by rfl) h₂ h⟩

end CollectionContext

/-! ### Keys of the initial result -/

/-- Every use of `@defer` stands in the initial result, directly or not, if the targets around it do. -/
theorem UsagesFrom.zero_mem_ancestors {first : Nat} {reached : List Target} {usages : List DeferUsage}
    (h : UsagesFrom first reached usages) (hreached : ∀ t ∈ reached, t ≠ .initial → 0 ∈ t.ancestors)
    {u : DeferUsage} (hu : u ∈ usages) : 0 ∈ u.ancestors := by
  -- by induction on the number of uses before it
  have hall : ∀ (n i : Nat) u, i < n → usages[i]? = some u → 0 ∈ u.ancestors := by
    intro n
    induction n with
    | zero => intro i u hi; omega
    | succ n ih =>
      intro i u hi hu
      obtain ⟨t, hancestors, ht⟩ := h.around i u hu
      rw [hancestors]
      rcases ht with ht | ⟨j, v, hj, hv, rfl⟩
      · by_cases hinitial : t = .initial
        · rw [hinitial]
          exact List.mem_cons_self
        · exact List.mem_cons_of_mem _ (hreached t ht hinitial)
      · exact List.mem_cons_of_mem _ (ih j v (by omega) hv)
  obtain ⟨i, hi⟩ := List.mem_iff_getElem?.1 hu
  exact hall (i + 1) i u (by omega) hi

namespace Occurrence

variable {met : List Occurrence}

theorem mem_keys_groups {targets : TargetSet} {next : Nat} {keys : List String} {key : String} :
    key ∈ (groups met targets next keys).map Prod.fst ↔ key ∈ keys ∧ details met key ≠ [] := by
  induction keys generalizing next with
  | nil => simp [groups]
  | cons k rest ih =>
    unfold groups
    split
    · rename_i hnil
      rw [ih, List.mem_cons]
      constructor
      · exact And.imp_left .inr
      · rintro ⟨rfl | hrest, hne⟩
        · exact absurd hnil hne
        · exact ⟨hrest, hne⟩
    · rename_i first others hcons
      rw [List.map_cons, List.mem_cons, ih, List.mem_cons]
      constructor
      · rintro (rfl | ⟨hrest, hne⟩)
        · exact ⟨.inl rfl, by simp [hcons]⟩
        · exact ⟨.inr hrest, hne⟩
      · rintro ⟨rfl | hrest, hne⟩
        · exact .inl rfl
        · exact .inr ⟨hrest, hne⟩

/-- The initial result has the keys that were met in it, whatever else they were met in. -/
theorem mem_keys_partition {first : Nat} {usages : List DeferUsage} (husages : UsagesFrom first [.initial] usages)
    (hmet : ∀ o ∈ met, Reaches [.initial] usages o.target) (next : Nat) (key : String) :
    key ∈ (partition met .initial next usages).1.fields.map Prod.fst ↔
      ∃ o ∈ met, o.target = .initial ∧ o.key = key := by
  show key ∈ (groups met .initial next (keysOf met .initial)).map Prod.fst ↔ _
  rw [mem_keys_groups, keysOf, List.mem_filter, decide_eq_true_eq]
  constructor
  · rintro ⟨⟨-, hmask⟩, -⟩
    have hmem : Target.initial ∈ targetsOf met key :=
      mem_maskingSet (by rw [hmask]; exact List.mem_singleton_self _)
    obtain ⟨o, ho, hkey, htarget⟩ := mem_targetsOf.1 hmem
    exact ⟨o, ho, htarget, hkey⟩
  · rintro ⟨o, ho, htarget, rfl⟩
    have hmem : Target.initial ∈ targetsOf met o.key := mem_targetsOf.2 ⟨o, ho, rfl, htarget⟩
    refine ⟨⟨?_, maskingSet_initial hmem fun t ht hne => ?_⟩, fun hnil => ?_⟩
    · rw [keys, List.mem_eraseDups]
      exact List.mem_map_of_mem ho
    · obtain ⟨o', ho', -, rfl⟩ := mem_targetsOf.1 ht
      rcases hmet o' ho' with hinitial | ⟨u, hu, hdeferred⟩
      · exact absurd (List.mem_singleton.1 hinitial) hne
      · rw [hdeferred]
        exact husages.zero_mem_ancestors (by simp) hu
    · have hdetails := mem_map_details.2 hmem
      rw [hnil] at hdetails
      exact absurd hdetails (by simp)

end Occurrence

/-- A key belongs to the initial result exactly if it is reached through fragments that are not deferred, none of which
was visited inside a deferred fragment.  No fragment is visited twice. -/
theorem Collector.mem_keys_collectFields {collector collector' : Collector} {c : CollectionContext} {objectType : String}
    {selections : List Selection} {collected : CollectedFields}
    (h : collector.collectFields c objectType selections = (.ok collected, collector')) :
    ∃ visits, c.Visits objectType false selections [] visits ∧ (visits.map Prod.fst).Nodup ∧
      ∀ key, key ∈ collected.fields.map Prod.fst ↔
        ∃ names, c.ReachedPlainly objectType selections names key ∧ ∀ name ∈ names, (name, true) ∉ visits := by
  have hyields : CollectM.Yields (c.walk objectType (c.depthBound selections) .initial selections)
      { nextUsage := collector.nextUsage } fun _ w' =>
      ∃ visits, c.Walked objectType .initial selections { nextUsage := collector.nextUsage } [] w' visits :=
    CollectionContext.yields_walk _ _ _ rfl List.nodup_nil
  have hkeeps : CollectM.Keeps collector.nextUsage [.initial]
      (c.walk objectType (c.depthBound selections) .initial selections) { nextUsage := collector.nextUsage }
      fun _ _ => True :=
    c.keeps_walk objectType _ (.inl (List.mem_singleton_self _)) selections
  obtain ⟨hknown, -⟩ := hkeeps
    ⟨⟨fun i u hu => absurd hu (by simp), fun i u hu => absurd hu (by simp)⟩, rfl, fun o ho => absurd ho (by simp)⟩
  unfold collectFields finish at h
  dsimp only at h
  rcases hrun : (c.walk objectType (c.depthBound selections) .initial selections).run.run
    { nextUsage := collector.nextUsage } with ⟨outcome, w⟩
  rw [hrun] at h hknown
  cases outcome with
  | error e => exact absurd h (by simp)
  | ok =>
    obtain ⟨visits, hwalked⟩ := hyields ⟨⟩ (by rw [hrun])
    rw [hrun] at hwalked
    have hnodup : (visits.map Prod.fst).Nodup := by
      rw [hwalked.names]
      exact hwalked.nodup
    refine ⟨visits, hwalked.order, hnodup, fun key => ?_⟩
    obtain rfl : (Occurrence.partition w.met .initial collector.nextGroup w.newUsages).1 = collected := by
      simpa using congrArg Prod.fst h
    rw [Occurrence.mem_keys_partition hknown.usages hknown.met]
    constructor
    · rintro ⟨o, ho, hinitial, rfl⟩
      rcases hwalked.met o ho hinitial with ho | ⟨-, names, hreached, hvisits⟩
      · exact absurd ho (by simp)
      · refine ⟨names, hreached, fun name hname hinside => ?_⟩
        have heq : (name, false) = (name, true) := List.inj_on_of_nodup_map hnodup (hvisits name hname) hinside rfl
        exact absurd heq (by simp)
    · rintro ⟨names, hreached, hvisits⟩
      -- what is reached is explored, by induction along the fragments
      have hall : ∀ {selections names}, c.ReachedPlainly objectType selections names key →
          (∀ name ∈ names, (name, true) ∉ visits) → c.Explored objectType w selections →
          ∃ o ∈ w.met, o.target = .initial ∧ o.key = key := by
        clear hreached hvisits
        intro selections names hreached hvisits hexplored
        induction hreached with
        | field hmem hincluded => exact hexplored.fields _ (.here hmem) hincluded
        | @inside selections selection name? below names key hmem henters hbelow ih =>
          refine ih (fun name hname => hvisits name (List.mem_append_right _ hname)) ?_
          cases name? with
          | none =>
            exact ⟨fun node hnode => hexplored.fields node (.inline hmem henters hnode),
              fun s name b hs => hexplored.spreads s name b (.inline hmem henters hs)⟩
          | some name =>
            have hname := hexplored.spreads _ _ _ (.here hmem) henters
            rw [← hwalked.names] at hname
            obtain ⟨⟨_, inside⟩, hvisit, rfl⟩ := List.mem_map.1 hname
            cases inside with
            | true => exact absurd hvisit (hvisits _ (List.mem_append_left _ (by simp)))
            | false => exact (hwalked.fragments _ _ _ hvisit henters).resolve_left (by simp)
      exact hall hreached hvisits (hwalked.explored rfl)

/-! ### A fragment that is spread twice -/

namespace CollectionContext

/-- A fragment on `Query` with the field `a`. -/
def fragmentF : Fragment :=
  ⟨⟨"F", .empty 0⟩, ⟨"Query", .empty 0⟩, [], ⟨[.named "a"], .empty 0⟩, .empty 0⟩

/-- A document with the fragment `F`. -/
def withF : CollectionContext where
  schema := ⟨"Query", none, none, (SchemaDraft.ofTypes [.ofFields "Query" [("a", .named "String")]]).types,
    (SchemaDraft.ofTypes []).directives⟩
  document := ⟨[.fragment fragmentF], .empty 0⟩
  vars := []
  operation := .query
  incremental := true

/-- The fragment `F` inside a deferred fragment, and then once more outside. -/
def spreadTwice : List Selection := [.deferred [.spreadOf "F"], .spreadOf "F"]

private theorem reachedPlainly_spreadTwice : withF.ReachedPlainly "Query" spreadTwice ["F"] "a" := by
  have hincluded : withF.Includes [] := rfl
  have hdefers : withF.Defers [] false := ⟨none, rfl, rfl⟩
  have hfragment : withF.document.fragment? "F" = some fragmentF := rfl
  exact .inside (List.mem_cons_of_mem _ (List.mem_singleton_self _)) (.spread hincluded hdefers hfragment rfl)
    (.field (List.mem_singleton_self _) hincluded)

private theorem collectFields_spreadTwice : ∃ collected collector,
    Collector.collectFields {} withF "Query" spreadTwice = (.ok collected, collector) ∧
      collected.fields.map Prod.fst = [] := by
  have hkeys : (({} : Collector).collectFields withF "Query" spreadTwice).1.toOption.map
      (fun collected => collected.fields.map Prod.fst) = some [] := by decide +kernel
  rcases hrun : ({} : Collector).collectFields withF "Query" spreadTwice with ⟨outcome, collector⟩
  rw [hrun] at hkeys
  cases outcome with
  | error e => exact absurd hkeys (by simp [Except.toOption])
  | ok collected => exact ⟨collected, collector, rfl, by simpa [Except.toOption] using hkeys⟩

/-- A field that is reached without `@defer` does not belong to the initial result. -/
theorem plain_field_deferred : withF.ReachedPlainly "Query" spreadTwice ["F"] "a" ∧
    ∃ collected collector, Collector.collectFields {} withF "Query" spreadTwice = (.ok collected, collector) ∧
      "a" ∉ collected.fields.map Prod.fst := by
  obtain ⟨collected, collector, hrun, hkeys⟩ := collectFields_spreadTwice
  exact ⟨reachedPlainly_spreadTwice, collected, collector, hrun, by simp [hkeys]⟩

/-- Its fragment was visited inside the deferred one. -/
theorem visited_inside_deferred : ∃ collected collector visits,
    Collector.collectFields {} withF "Query" spreadTwice = (.ok collected, collector) ∧
      withF.Visits "Query" false spreadTwice [] visits ∧ ("F", true) ∈ visits := by
  obtain ⟨collected, collector, hrun, hkeys⟩ := collectFields_spreadTwice
  obtain ⟨visits, hvisits, -, hiff⟩ := Collector.mem_keys_collectFields hrun
  refine ⟨collected, collector, visits, hrun, hvisits, ?_⟩
  by_contra hnot
  have hmem : "a" ∈ collected.fields.map Prod.fst :=
    (hiff "a").2 ⟨_, reachedPlainly_spreadTwice, fun name hname => by rw [List.mem_singleton.1 hname]; exact hnot⟩
  rw [hkeys] at hmem
  exact absurd hmem (by simp)

end CollectionContext

end GraphQL
