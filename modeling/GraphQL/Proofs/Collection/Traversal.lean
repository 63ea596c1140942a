import GraphQL.Proofs.Collection.Plain

/-!
# The recursion of field collection

A collection goes through selections in the order in which they are written, and through those below a fragment before it
goes on.  `CollectionContext.Runs` is this recursion without a bound on its depth, so it need not come to an end, and
`CollectionContext.Meets` says which fields and which uses of `@defer` it comes across.  A collection with enough depth has
the outcome of the recursion (`CollectionContext.runs_walk`).
-/

namespace GraphQL

/-- Selections in a target. -/
def Target.over (target : Target) (selections : List Selection) : List (Target × Selection) := selections.map (target, ·)

/-- The selections below all fields of the group, in the targets of the fields. -/
def FieldGroup.below (group : FieldGroup) : List (Target × Selection) :=
  group.fields.flatMap fun details => details.target.over ((details.node.selectionSet.map (·.selections)).getD [])

namespace CollectionContext

/-- The recursion over selections in their targets comes to an end, with an outcome. -/
inductive Runs (c : CollectionContext) (objectType : String) :
    List (Target × Selection) → CollectionWalk → Except CollectionError Unit × CollectionWalk → Prop
  | nil {w} : Runs c objectType [] w (.ok (), w)
  | fail {target selection rest w w' e} (h : (c.step objectType target selection).run.run w = (.error e, w')) :
      Runs c objectType ((target, selection) :: rest) w (.error e, w')
  | pass {target selection rest w w' outcome} (h : (c.step objectType target selection).run.run w = (.ok none, w'))
      (hrest : Runs c objectType rest w' outcome) : Runs c objectType ((target, selection) :: rest) w outcome
  | failBelow {target selection rest below within w w₁ w' e}
      (h : (c.step objectType target selection).run.run w = (.ok (some (below, within)), w₁))
      (hbelow : Runs c objectType (within.over below) w₁ (.error e, w')) :
      Runs c objectType ((target, selection) :: rest) w (.error e, w')
  | follow {target selection rest below within w w₁ w₂ outcome}
      (h : (c.step objectType target selection).run.run w = (.ok (some (below, within)), w₁))
      (hbelow : Runs c objectType (within.over below) w₁ (.ok (), w₂)) (hrest : Runs c objectType rest w₂ outcome) :
      Runs c objectType ((target, selection) :: rest) w outcome

/-- A walk through selections in their targets, from names that were visited and a free number, meets fields and numbers
uses of `@defer`, and visits more names. -/
inductive Meets (c : CollectionContext) (objectType : String) : List (Target × Selection) →
    (visited : List String) → (next : Nat) → List Occurrence → List DeferUsage → (visited' : List String) → Prop
  | nil {visited next} : Meets c objectType [] visited next [] [] visited
  | field {target node rest visited next met usages visited'} (h : c.Includes node.directives)
      (hrest : Meets c objectType rest visited next met usages visited') :
      Meets c objectType ((target, .field node) :: rest) visited next (⟨node.responseKey, target, node⟩ :: met) usages visited'
  | pass {target selection rest visited next met usages visited'}
      (hfield : ∀ node, selection = .field node → ¬ c.Includes node.directives)
      (h : ∀ deferred name? below, c.Enters objectType selection deferred name? below →
        deferred = false ∧ ∃ name, name? = some name ∧ name ∈ visited)
      (hrest : Meets c objectType rest visited next met usages visited') :
      Meets c objectType ((target, selection) :: rest) visited next met usages visited'
  | plain {target selection rest name? below visited next met₁ usages₁ visited₁ met₂ usages₂ visited₂}
      (henters : c.Enters objectType selection false name? below) (hnew : ∀ name, name? = some name → name ∉ visited)
      (hbelow : Meets c objectType (target.over below) (name?.toList ++ visited) next met₁ usages₁ visited₁)
      (hrest : Meets c objectType rest visited₁ (next + usages₁.length) met₂ usages₂ visited₂) :
      Meets c objectType ((target, selection) :: rest) visited next (met₁ ++ met₂) (usages₁ ++ usages₂) visited₂
  | deferred {target selection rest name? below usage visited next met₁ usages₁ visited₁ met₂ usages₂ visited₂}
      (henters : c.Enters objectType selection true name? below) (hid : usage.id = next)
      (haround : usage.ancestors = target.id :: target.ancestors)
      (hbelow : Meets c objectType ((Target.deferred usage).over below) visited (next + 1) met₁ usages₁ visited₁)
      (hrest : Meets c objectType rest visited₁ (next + 1 + usages₁.length) met₂ usages₂ visited₂) :
      Meets c objectType ((target, selection) :: rest) visited next (met₁ ++ met₂) (usage :: usages₁ ++ usages₂) visited₂

variable {c : CollectionContext} {objectType : String}

/-! ### Walks and the recursion -/

/-- A walk that is deep enough runs. -/
theorem runs_walk (depth : Nat) (target : Target) (selections : List Selection) (w : CollectionWalk)
    (h : ((c.walk objectType depth target selections).run.run w).1 ≠ .error .endlessFragments) :
    c.Runs objectType (target.over selections) w ((c.walk objectType depth target selections).run.run w) := by
  induction depth generalizing target selections w with
  | zero => exact absurd rfl h
  | succ depth ih =>
    unfold walk at h ⊢
    rw [List.forM_eq_forM] at h ⊢
    induction selections generalizing w with
    | nil => exact .nil
    | cons selection rest ihrest =>
      rw [List.forM_cons, bind_assoc, CollectM.run_bind] at h ⊢
      rcases hstep : (c.step objectType target selection).run.run w with ⟨outcome, w₁⟩
      rw [hstep] at h
      cases outcome with
      | error e => exact .fail hstep
      | ok below? =>
        cases below? with
        | none => exact .pass hstep (ihrest w₁ h)
        | some below =>
          obtain ⟨below, within⟩ := below
          dsimp only at h ⊢
          rw [CollectM.run_bind] at h ⊢
          rcases hwalk : (c.walk objectType depth within below).run.run w₁ with ⟨outcome, w₂⟩
          rw [hwalk] at h
          have hbelow := ih within below w₁
          rw [hwalk] at hbelow
          cases outcome with
          | error e => exact .failBelow hstep (hbelow h)
          | ok => exact .follow hstep (hbelow (by simp)) (ihrest w₂ h)

/-- The recursion goes through selections one after the other. -/
theorem Runs.append {xs ys : List (Target × Selection)} {w w₁ : CollectionWalk}
    {outcome : Except CollectionError Unit × CollectionWalk} (hxs : c.Runs objectType xs w (.ok (), w₁))
    (hys : c.Runs objectType ys w₁ outcome) : c.Runs objectType (xs ++ ys) w outcome := by
  generalize hdone : (Except.ok (), w₁) = done at hxs
  induction hxs with
  | nil =>
    cases hdone
    exact hys
  | fail => exact absurd hdone (by simp)
  | pass h _ ih => exact .pass h (ih hdone)
  | failBelow => exact absurd hdone (by simp)
  | follow h hbelow _ _ ih => exact .follow h hbelow (ih hdone)

/-- The recursion ends where it fails. -/
theorem Runs.append_error {xs : List (Target × Selection)} {w w' : CollectionWalk} {e : CollectionError}
    (h : c.Runs objectType xs w (.error e, w')) (ys : List (Target × Selection)) :
    c.Runs objectType (xs ++ ys) w (.error e, w') := by
  generalize hfailed : (Except.error e, w') = failed at h
  induction h with
  | nil => exact absurd hfailed (by simp)
  | fail h =>
    cases hfailed
    exact .fail h
  | pass h _ ih => exact .pass h (ih hfailed)
  | failBelow h hbelow =>
    cases hfailed
    exact .failBelow h hbelow
  | follow h hbelow _ _ ih => exact .follow h hbelow (ih hfailed)

/-- Walks below fields, one after the other, that are deep enough run. -/
theorem runs_fields (depth : SelectionSet → Nat) (fields : List FieldDetails) (w : CollectionWalk)
    (h : ((fields.forM fun details =>
      match details.node.selectionSet with
      | some set => c.walk objectType (depth set) details.target set.selections
      | none => return ()).run.run w).1 ≠ .error .endlessFragments) :
    c.Runs objectType
      (fields.flatMap fun details => details.target.over ((details.node.selectionSet.map (·.selections)).getD [])) w
      ((fields.forM fun details =>
        match details.node.selectionSet with
        | some set => c.walk objectType (depth set) details.target set.selections
        | none => return ()).run.run w) := by
  rw [List.forM_eq_forM] at h ⊢
  induction fields generalizing w with
  | nil => exact .nil
  | cons details rest ih =>
    rw [List.forM_cons, CollectM.run_bind] at h ⊢
    rw [List.flatMap_cons]
    cases hset : details.node.selectionSet with
    | none =>
      rw [hset] at h
      exact ih w h
    | some set =>
      rw [hset] at h
      dsimp only at h ⊢
      have hbelow : _ → c.Runs objectType (details.target.over set.selections) w _ :=
        c.runs_walk (depth set) details.target set.selections w
      rcases hwalk : (c.walk objectType (depth set) details.target set.selections).run.run w with ⟨outcome, w₁⟩
      rw [hwalk] at h hbelow
      cases outcome with
      | error e => exact (hbelow h).append_error _
      | ok => exact (hbelow (by simp)).append (ih w₁ h)

/-! ### What the recursion meets -/

/-- The recursion meets what is met along selections. -/
theorem Runs.meets {work : List (Target × Selection)} {w w' : CollectionWalk} (h : c.Runs objectType work w (.ok (), w')) :
    ∃ met usages, c.Meets objectType work w.visited w.nextUsage met usages w'.visited ∧ w'.met = w.met ++ met ∧
      w'.newUsages = w.newUsages ++ usages ∧ w'.nextUsage = w.nextUsage + usages.length := by
  generalize hdone : (Except.ok (), w') = done at h
  induction h generalizing w' with
  | nil =>
    cases hdone
    exact ⟨[], [], .nil, (List.append_nil _).symm, (List.append_nil _).symm, rfl⟩
  | fail => exact absurd hdone (by simp)
  | failBelow => exact absurd hdone (by simp)
  | @pass target selection rest w w₁ _ hstep _ ih =>
    obtain ⟨met, usages, hmeets, hmet, husages, hnext⟩ := ih hdone
    have hsteps := yields_step target selection none (by rw [hstep])
    rw [hstep] at hsteps
    cases hsteps with
    | field hincluded =>
      exact ⟨_, usages, .field hincluded hmeets, by rw [hmet, List.append_assoc]; rfl, husages, hnext⟩
    | pass hfield hpass => exact ⟨met, usages, .pass hfield hpass hmeets, hmet, husages, hnext⟩
  | @follow target selection rest below within w w₁ w₂ _ hstep _ _ ihbelow ih =>
    obtain ⟨met₁, usages₁, hmeets₁, hmet₁, husages₁, hnext₁⟩ := ihbelow rfl
    obtain ⟨met₂, usages₂, hmeets₂, hmet₂, husages₂, hnext₂⟩ := ih hdone
    have hsteps := yields_step target selection _ (by rw [hstep])
    rw [hstep] at hsteps
    dsimp only at hsteps
    rw [hnext₁] at hmeets₂ hnext₂
    rw [hmet₁, List.append_assoc] at hmet₂
    rw [husages₁] at husages₂
    cases hsteps with
    | plain henters hnew =>
      refine ⟨_, _, .plain henters hnew hmeets₁ hmeets₂, hmet₂, ?_, ?_⟩
      · rw [husages₂, List.append_assoc]
      · rw [hnext₂, List.length_append, Nat.add_assoc]
    | deferred henters hid haround =>
      refine ⟨_, _, .deferred henters hid haround hmeets₁ hmeets₂, hmet₂, ?_, ?_⟩
      · rw [husages₂]
        simp only [List.append_assoc, List.cons_append, List.nil_append]
      · rw [hnext₂]
        simp only [List.length_cons, List.length_append]
        omega

end CollectionContext

namespace Collector

variable {collector : Collector} {c : CollectionContext} {objectType : String}

/-- A collection fails if its walk does. -/
theorem finish_eq_error {parent : TargetSet} {outcome : Except CollectionError Unit × CollectionWalk} {e : CollectionError} :
    (collector.finish parent outcome).1 = .error e ↔ outcome.1 = .error e := by
  obtain ⟨result, walk⟩ := outcome
  cases result with
  | error e' => exact ⟨fun h => congrArg _ (Except.error.inj h), fun h => congrArg _ (Except.error.inj h)⟩
  | ok => exact ⟨fun h => absurd h (by simp [finish]), fun h => absurd h (by simp)⟩

/-- A collection that is not endless has the outcome of the recursion. -/
theorem exists_runs_collectFields {selections : List Selection}
    (h : (collector.collectFields c objectType selections).1 ≠ .error .endlessFragments) :
    ∃ outcome, c.Runs objectType (Target.initial.over selections) { nextUsage := collector.nextUsage } outcome ∧
      collector.collectFields c objectType selections = collector.finish .initial outcome := by
  exact ⟨_, c.runs_walk (c.depthBound selections) .initial selections _ fun hendless => h (finish_eq_error.2 hendless), rfl⟩

theorem exists_runs_collectBelow {group : FieldGroup}
    (h : (collector.collectBelow c objectType group).1 ≠ .error .endlessFragments) :
    ∃ outcome, c.Runs objectType group.below { nextUsage := collector.nextUsage } outcome ∧
      collector.collectBelow c objectType group = collector.finish group.targets outcome := by
  exact ⟨_, c.runs_fields (fun set => c.depthBound set.selections) group.fields _ fun hendless => h (finish_eq_error.2 hendless),
    rfl⟩

end Collector

end GraphQL
