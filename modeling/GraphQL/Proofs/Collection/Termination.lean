import GraphQL.Proofs.Collection.Traversal
import Mathlib.Data.List.Perm.Subperm
import Mathlib.Tactic.Ring

/-!
# The end of field collection

A fragment that is spread without `@defer` is followed once, one with `@defer` as often as it is spread.  So the recursion of
field collection comes to an end if no fragment that it reaches leads back to itself through fragments with `@defer` and
inline fragments alone, and it has no result if one does (`Collector.returns_unless_endless`).  Fragments may use each other
in circles otherwise.
-/

namespace GraphQL

namespace CollectionContext

/-! ### Fragments that use themselves -/

/-- The fragment with the name is spread among selections, or below fragments that are followed among them: inline fragments,
those that are deferred, and the others that are spread if this is `plainly` so. -/
inductive Spreads (c : CollectionContext) (objectType : String) (plainly : Bool) : List Selection → String → Prop
  | here {selections selection deferred name below} (h : selection ∈ selections)
      (henters : c.Enters objectType selection deferred (some name) below) (hfollows : deferred = true ∨ plainly = true) :
      Spreads c objectType plainly selections name
  | inside {selections selection deferred name? below name} (h : selection ∈ selections)
      (henters : c.Enters objectType selection deferred name? below)
      (hfollows : deferred = true ∨ name? = none ∨ plainly = true)
      (hbelow : Spreads c objectType plainly below name) : Spreads c objectType plainly selections name

/-- The fragment leads back to itself through `@defer` alone. -/
def DefersItself (c : CollectionContext) (objectType name : String) : Prop :=
  ∃ fragment, c.document.fragment? name = some fragment ∧
    c.Spreads objectType false fragment.selectionSet.selections name

/-- Selections lead to a fragment that leads back to itself through `@defer` alone. -/
def Endless (c : CollectionContext) (objectType : String) (selections : List Selection) : Prop :=
  ∃ name, c.Spreads objectType true selections name ∧ c.DefersItself objectType name

variable {c : CollectionContext} {objectType : String}

theorem Spreads.mono {plainly : Bool} {selections selections' : List Selection} {name : String}
    (h : c.Spreads objectType plainly selections name) (hle : selections ⊆ selections') :
    c.Spreads objectType plainly selections' name := by
  cases h with
  | here h henters hfollows => exact .here (hle h) henters hfollows
  | inside h henters hfollows hbelow => exact .inside (hle h) henters hfollows hbelow

theorem Endless.mono {selections selections' : List Selection} (h : c.Endless objectType selections)
    (hle : selections ⊆ selections') : c.Endless objectType selections' := by
  obtain ⟨name, hspreads, hdefers⟩ := h
  exact ⟨name, hspreads.mono hle, hdefers⟩

/-- A fragment that is spread is one of the document. -/
theorem Enters.exists_fragment {selection : Selection} {deferred : Bool} {name : String} {below : List Selection}
    (h : c.Enters objectType selection deferred (some name) below) :
    ∃ fragment ∈ c.document.fragments, fragment.name.value = name ∧ c.document.fragment? name = some fragment ∧
      below = fragment.selectionSet.selections := by
  cases h with
  | spread _ _ hfragment =>
    exact ⟨_, List.mem_of_find?_eq_some hfragment, by simpa using List.find?_some hfragment, hfragment, rfl⟩

theorem selectionDepth_le {selection : Selection} {selections : List Selection} (h : selection ∈ selections) :
    selectionDepth selection ≤ selectionsDepth selections := by
  induction selections with
  | nil => exact absurd h List.not_mem_nil
  | cons s rest ih =>
    unfold selectionsDepth
    rcases List.mem_cons.1 h with rfl | h
    · exact Nat.le_max_left _ _
    · exact Nat.le_trans (ih h) (Nat.le_max_right _ _)

/-- Inline fragments lie less deep inside one another below an inline fragment. -/
theorem Enters.selectionsDepth_lt {selection : Selection} {deferred : Bool} {below selections : List Selection}
    (h : c.Enters objectType selection deferred none below) (hmem : selection ∈ selections) :
    selectionsDepth below < selectionsDepth selections := by
  cases h with
  | inline =>
    have hle := selectionDepth_le hmem
    unfold selectionDepth at hle
    exact hle

end CollectionContext

/-! ### Steps that return -/

/-- The step is not endless, and if it succeeds, its outcome and the walk after it have a property. -/
def CollectM.Returns {α : Type} (m : CollectM α) (w : CollectionWalk) (Q : α → CollectionWalk → Prop) : Prop :=
  (m.run.run w).1 ≠ .error .endlessFragments ∧ m.Yields w Q

namespace CollectM.Returns

variable {α β : Type} {w : CollectionWalk} {Q Q' : α → CollectionWalk → Prop}

theorem imp {m : CollectM α} (h : Returns m w Q) (himp : ∀ a w', Q a w' → Q' a w') : Returns m w Q' :=
  ⟨h.1, h.2.imp himp⟩

theorem pure {a : α} (h : Q a w) : Returns (Pure.pure a) w Q := ⟨by rintro ⟨⟩, .pure h⟩

theorem throw {e : CollectionError} (he : e ≠ .endlessFragments) : Returns (MonadExcept.throw e : CollectM α) w Q := by
  refine ⟨fun heq => he ?_, .throw⟩
  cases heq
  rfl

theorem bind {m : CollectM α} {k : α → CollectM β} {R : β → CollectionWalk → Prop}
    (h : Returns m w fun a w' => Returns (k a) w' R) : Returns (m >>= k) w R := by
  refine ⟨?_, .bind (h.2.imp fun _ _ => And.right)⟩
  rw [CollectM.run_bind]
  rcases hm : m.run.run w with ⟨r, w'⟩
  cases r with
  | error e =>
    intro heq
    cases heq
    exact h.1 (by rw [hm])
  | ok a =>
    have hk := h.2 a (by rw [hm])
    rw [hm] at hk
    exact hk.1

theorem get {Q : CollectionWalk → CollectionWalk → Prop} (h : Q w w) : Returns MonadState.get w Q :=
  ⟨by rintro ⟨⟩, .get h⟩

theorem modify {f : CollectionWalk → CollectionWalk} {Q : PUnit → CollectionWalk → Prop} (h : Q ⟨⟩ (f w)) :
    Returns (modify f) w Q :=
  ⟨by rintro ⟨⟩, .modify h⟩

/-- Steps that are made one after another, and keep an invariant. -/
theorem forM {f : α → CollectM PUnit} {I : CollectionWalk → Prop} (xs : List α)
    (h : ∀ x ∈ xs, ∀ w, I w → Returns (f x) w fun _ => I) (hI : I w) : Returns (xs.forM f) w fun _ => I := by
  rw [List.forM_eq_forM]
  induction xs generalizing w with
  | nil => exact pure hI
  | cons x rest ih =>
    rw [List.forM_cons]
    exact bind ((h x List.mem_cons_self w hI).imp fun _ _ hI' => ih (fun y hy => h y (List.mem_cons_of_mem _ hy)) hI')

end CollectM.Returns

namespace CollectionContext

open CollectM

variable {c : CollectionContext} {objectType : String} {w : CollectionWalk}

theorem returns_included (directives : List Directive) : Returns (c.included directives) w fun _ _ => True := by
  unfold included
  split
  · exact .pure trivial
  · exact .throw (by simp)

theorem returns_deferred? (directives : List Directive) : Returns (c.deferred? directives) w fun _ _ => True := by
  unfold deferred?
  split
  · exact .pure trivial
  · split
    · exact .throw (by simp)
    · exact .pure trivial
    · split
      · exact .throw (by simp)
      · exact .pure trivial

theorem returns_targetWithin (defer : Option DeferDirective) (target : Target) :
    Returns (targetWithin defer target) w fun _ _ => True := by
  unfold targetWithin
  split
  · exact .pure trivial
  · exact .bind (.get (.bind (.modify (f := fun _ => _) (.pure trivial))))

/-- Steps return. -/
theorem returns_step (target : Target) (selection : Selection) :
    Returns (c.step objectType target selection) w fun below? w' => c.Steps objectType target w selection below? w' := by
  refine ⟨?_, yields_step target selection⟩
  have hreturns : Returns (c.step objectType target selection) w fun _ _ => True := by
    unfold step
    cases selection with
    | field node =>
      refine .bind ((returns_included node.directives).imp fun b w _ => ?_)
      split
      · exact .bind (.modify (.pure trivial))
      · exact .pure trivial
    | inline node =>
      refine .bind ((returns_included node.directives).imp fun b w _ => ?_)
      split
      · exact .pure trivial
      · refine .bind ((returns_deferred? node.directives).imp fun defer w _ => ?_)
        exact .bind ((returns_targetWithin defer target).imp fun t w _ => .pure trivial)
    | spread node =>
      refine .bind ((returns_included node.directives).imp fun b w _ => ?_)
      split
      · exact .pure trivial
      · refine .bind ((returns_deferred? node.directives).imp fun defer w _ => .bind (.get ?_))
        split
        · exact .pure trivial
        · split
          · exact .pure trivial
          · split
            · exact .pure trivial
            · split
              · refine .bind (.modify ?_)
                exact .bind ((returns_targetWithin defer target).imp fun t w _ => .pure trivial)
              · exact .bind ((returns_targetWithin defer target).imp fun t w _ => .pure trivial)
  exact hreturns.1

/-! ### How deep the recursion goes -/

/-- How many fragments of the document were not visited. -/
def unvisited (c : CollectionContext) (visited : List String) : Nat :=
  ((c.document.fragments.map (·.name.value)).filter (· ∉ visited)).length

theorem unvisited_le (visited : List String) : c.unvisited visited ≤ c.document.fragments.length :=
  Nat.le_trans (List.length_filter_le _ _) (Nat.le_of_eq (List.length_map _))

theorem unvisited_mono {visited visited' : List String} (hle : visited ⊆ visited') :
    c.unvisited visited' ≤ c.unvisited visited := by
  refine (List.monotone_filter_right _ fun name hname => ?_).length_le
  simp only [decide_eq_true_eq] at hname ⊢
  exact fun hmem => hname (hle hmem)

theorem unvisited_lt {fragment : Fragment} (hfragment : fragment ∈ c.document.fragments) {visited : List String}
    (hnew : fragment.name.value ∉ visited) : c.unvisited (fragment.name.value :: visited) < c.unvisited visited := by
  have hfilter : (c.document.fragments.map (·.name.value)).filter (· ∉ fragment.name.value :: visited) =
      ((c.document.fragments.map (·.name.value)).filter (· ∉ visited)).filter (· ≠ fragment.name.value) := by
    rw [List.filter_filter]
    exact List.filter_congr fun name _ => by simp
  unfold unvisited
  rw [hfilter]
  refine List.length_filter_lt_length_iff_exists.2 ⟨fragment.name.value, List.mem_filter.2 ⟨?_, by simpa using hnew⟩, by simp⟩
  exact List.mem_map_of_mem hfragment

/-- Selections stand below fragments with `@defer`, the latest first, which are spread inside one another below the last
fragment without it, or below the start. -/
structure Chain (c : CollectionContext) (objectType : String) (start : List Selection) (spread : List String)
    (selections : List Selection) : Prop where
  nodup : spread.Nodup
  reached : ∀ name, c.Spreads objectType true selections name → c.Spreads objectType true start name
  around : ∀ name ∈ spread, c.Spreads objectType true start name ∧ ∃ fragment ∈ c.document.fragments,
    fragment.name.value = name ∧ c.document.fragment? name = some fragment ∧
      ∀ inner, c.Spreads objectType false selections inner →
        c.Spreads objectType false fragment.selectionSet.selections inner

namespace Chain

variable {start selections below : List Selection} {spread : List String} {selection : Selection}

theorem refl (start : List Selection) : c.Chain objectType start [] start :=
  ⟨List.nodup_nil, fun _ h => h, fun _ hname => absurd hname List.not_mem_nil⟩

/-- There are no more fragments around selections than in the document. -/
theorem length_le (h : c.Chain objectType start spread selections) : spread.length ≤ c.document.fragments.length := by
  have hsubset : spread ⊆ c.document.fragments.map (·.name.value) := by
    intro name hname
    obtain ⟨-, fragment, hmem, rfl, -⟩ := h.around name hname
    exact List.mem_map_of_mem hmem
  exact Nat.le_trans (h.nodup.subperm hsubset).length_le (Nat.le_of_eq (List.length_map _))

/-- Below an inline fragment. -/
theorem inline {deferred : Bool} (h : c.Chain objectType start spread selections) (hmem : selection ∈ selections)
    (henters : c.Enters objectType selection deferred none below) : c.Chain objectType start spread below where
  nodup := h.nodup
  reached name hspreads := h.reached name (.inside hmem henters (.inr (.inl rfl)) hspreads)
  around name hname := by
    obtain ⟨hstart, fragment, hfragment, heq, hfound, hinner⟩ := h.around name hname
    exact ⟨hstart, fragment, hfragment, heq, hfound,
      fun inner hspreads => hinner inner (.inside hmem henters (.inr (.inl rfl)) hspreads)⟩

/-- Below a fragment without `@defer`. -/
theorem plain {name : String} (h : c.Chain objectType start spread selections) (hmem : selection ∈ selections)
    (henters : c.Enters objectType selection false (some name) below) : c.Chain objectType start [] below where
  nodup := List.nodup_nil
  reached _ hspreads := h.reached _ (.inside hmem henters (.inr (.inr rfl)) hspreads)
  around _ hname := absurd hname List.not_mem_nil

/-- Below a fragment with `@defer`, which is none of those around it. -/
theorem deferred {name : String} (h : c.Chain objectType start spread selections) (hmem : selection ∈ selections)
    (henters : c.Enters objectType selection true (some name) below) (hend : ¬ c.Endless objectType start) :
    c.Chain objectType start (name :: spread) below where
  nodup := by
    refine List.nodup_cons.2 ⟨fun hname => hend ?_, h.nodup⟩
    obtain ⟨hstart, fragment, -, -, hfound, hinner⟩ := h.around name hname
    exact ⟨name, hstart, fragment, hfound, hinner name (.here hmem henters (.inl rfl))⟩
  reached _ hspreads := h.reached _ (.inside hmem henters (.inl rfl) hspreads)
  around := by
    intro name' hname'
    rcases List.mem_cons.1 hname' with rfl | hname'
    · obtain ⟨fragment, hfragment, heq, hfound, rfl⟩ := henters.exists_fragment
      exact ⟨h.reached _ (.here hmem henters (.inl rfl)), fragment, hfragment, heq, hfound, fun _ hspreads => hspreads⟩
    · obtain ⟨hstart, fragment, hfragment, heq, hfound, hinner⟩ := h.around name' hname'
      exact ⟨hstart, fragment, hfragment, heq, hfound,
        fun inner hspreads => hinner inner (.inside hmem henters (.inl rfl) hspreads)⟩

end Chain

/-- How deep the recursion may still go: fragments that are not visited may be followed, below each of them fragments with
`@defer` that are not around the selections, and inline fragments below each of these. -/
def depthLeft (c : CollectionContext) (inline : Nat) (visited spread : List String) (selections : List Selection) : Nat :=
  c.unvisited visited * ((c.document.fragments.length + 1) * (inline + 1)) +
    (c.document.fragments.length - spread.length) * (inline + 1) + selectionsDepth selections

section DepthLeft

variable (inline : Nat) {visited visited' : List String} (spread : List String) (selections : List Selection)
  {below : List Selection}

variable {selections} in
theorem depthLeft_inline (hle : visited ⊆ visited') (hdepth : selectionsDepth below < selectionsDepth selections) :
    c.depthLeft inline visited' spread below < c.depthLeft inline visited spread selections := by
  have hunvisited := Nat.mul_le_mul_right ((c.document.fragments.length + 1) * (inline + 1)) (c.unvisited_mono hle)
  unfold depthLeft
  omega

variable {inline spread} in
theorem depthLeft_deferred {name : String} (hle : visited ⊆ visited')
    (hspread : (name :: spread).length ≤ c.document.fragments.length) (hdepth : selectionsDepth below ≤ inline) :
    c.depthLeft inline visited' (name :: spread) below < c.depthLeft inline visited spread selections := by
  have hunvisited := Nat.mul_le_mul_right ((c.document.fragments.length + 1) * (inline + 1)) (c.unvisited_mono hle)
  rw [List.length_cons] at hspread
  have hleft : c.document.fragments.length - spread.length = c.document.fragments.length - (name :: spread).length + 1 := by
    rw [List.length_cons]
    omega
  have hround : (c.document.fragments.length - (name :: spread).length + 1) * (inline + 1) =
      (c.document.fragments.length - (name :: spread).length) * (inline + 1) + (inline + 1) := Nat.succ_mul _ _
  unfold depthLeft
  rw [hleft]
  omega

variable {inline} in
theorem depthLeft_plain (hlt : c.unvisited visited' < c.unvisited visited) (hdepth : selectionsDepth below ≤ inline) :
    c.depthLeft inline visited' [] below < c.depthLeft inline visited spread selections := by
  have hunvisited := Nat.mul_le_mul_right ((c.document.fragments.length + 1) * (inline + 1)) (Nat.succ_le_of_lt hlt)
  rw [Nat.succ_mul] at hunvisited
  have hround : (c.document.fragments.length + 1) * (inline + 1) =
      (c.document.fragments.length - ([] : List String).length) * (inline + 1) + (inline + 1) := Nat.succ_mul _ _
  unfold depthLeft
  omega

end DepthLeft

/-- A walk that is deep enough returns. -/
theorem returns_walk {start : List Selection} (hend : ¬ c.Endless objectType start) {inline : Nat}
    (hinline : ∀ f ∈ c.document.fragments, selectionsDepth f.selectionSet.selections ≤ inline) (depth : Nat)
    (target : Target) {selections : List Selection} {spread : List String} {w : CollectionWalk}
    (hchain : c.Chain objectType start spread selections) (hdepth : c.depthLeft inline w.visited spread selections < depth) :
    Returns (c.walk objectType depth target selections) w fun _ w' => w.visited ⊆ w'.visited := by
  induction depth generalizing target selections spread w with
  | zero => exact absurd hdepth (Nat.not_lt_zero _)
  | succ depth ih =>
    unfold walk
    -- along the selections, with what was visited meanwhile
    refine .forM (I := fun w₁ => w.visited ⊆ w₁.visited) selections (fun selection hmem w₁ hvisited => ?_)
      (List.Subset.refl _)
    refine .bind ((returns_step target selection).imp fun below? w₂ hstep => ?_)
    cases hstep with
    | field => exact .pure hvisited
    | pass => exact .pure hvisited
    | @plain _ name? below henters hnew =>
      cases name? with
      | none =>
        have hleft := c.depthLeft_inline inline spread hvisited (henters.selectionsDepth_lt hmem)
        exact (ih (w := w₁) target (hchain.inline hmem henters) (by omega)).imp fun _ _ hle =>
          List.Subset.trans hvisited hle
      | some name =>
        obtain ⟨fragment, hfragment, rfl, -, rfl⟩ := henters.exists_fragment
        have hlt := Nat.lt_of_lt_of_le (c.unvisited_lt hfragment (hnew _ rfl)) (c.unvisited_mono hvisited)
        have hleft := c.depthLeft_plain spread selections hlt (hinline _ hfragment)
        refine (ih (w := { w₁ with visited := _ }) target (hchain.plain hmem henters) ?_).imp fun _ _ hle =>
          List.Subset.trans hvisited (List.Subset.trans (List.subset_cons_self _ _) hle)
        exact Nat.lt_of_lt_of_le hleft (Nat.le_of_lt_succ hdepth)
    | @deferred _ name? below usage henters =>
      cases name? with
      | none =>
        have hleft := c.depthLeft_inline inline spread hvisited (henters.selectionsDepth_lt hmem)
        refine (ih (w := { w₁ with nextUsage := w₁.nextUsage + 1, newUsages := w₁.newUsages ++ [usage] })
          (.deferred usage) (hchain.inline hmem henters) ?_).imp fun _ _ hle => List.Subset.trans hvisited hle
        exact Nat.lt_of_lt_of_le hleft (Nat.le_of_lt_succ hdepth)
      | some name =>
        have hbelow := hchain.deferred hmem henters hend
        obtain ⟨fragment, hfragment, rfl, -, rfl⟩ := henters.exists_fragment
        have hleft := c.depthLeft_deferred selections hvisited hbelow.length_le (hinline _ hfragment)
        refine (ih (w := { w₁ with nextUsage := w₁.nextUsage + 1, newUsages := w₁.newUsages ++ [usage] })
          (.deferred usage) hbelow ?_).imp fun _ _ hle => List.Subset.trans hvisited hle
        exact Nat.lt_of_lt_of_le hleft (Nat.le_of_lt_succ hdepth)

theorem le_foldl_max (xs : List Nat) (init : Nat) : init ≤ xs.foldl max init ∧ ∀ x ∈ xs, x ≤ xs.foldl max init := by
  induction xs generalizing init with
  | nil => exact ⟨Nat.le_refl _, fun x hx => absurd hx List.not_mem_nil⟩
  | cons y rest ih =>
    obtain ⟨hinit, hrest⟩ := ih (max init y)
    refine ⟨Nat.le_trans (Nat.le_max_left _ _) hinit, fun x hx => ?_⟩
    rcases List.mem_cons.1 hx with rfl | hx
    · exact Nat.le_trans (Nat.le_max_right _ _) hinit
    · exact hrest x hx

/-- The bound on the depth of a walk is enough. -/
theorem walk_ne_endless {selections : List Selection} (hend : ¬ c.Endless objectType selections) (target : Target)
    (w : CollectionWalk) :
    ((c.walk objectType (c.depthBound selections) target selections).run.run w).1 ≠ .error .endlessFragments := by
  obtain ⟨hstart, hfragments⟩ := le_foldl_max
    (c.document.fragments.map fun f => selectionsDepth f.selectionSet.selections) (selectionsDepth selections)
  refine (c.returns_walk hend (fun f hf => hfragments _ (List.mem_map_of_mem hf)) _ target (.refl _) ?_).1
  unfold depthLeft depthBound
  dsimp only
  generalize (c.document.fragments.map fun f => selectionsDepth f.selectionSet.selections).foldl max
    (selectionsDepth selections) = inline at hstart
  have hunvisited := c.unvisited_le w.visited
  generalize c.document.fragments.length = n at hunvisited
  rw [List.length_nil, Nat.sub_zero]
  have hround := Nat.mul_le_mul_right ((n + 1) * (inline + 1)) hunvisited
  have hsquare : ((n + 1) * (n + 1) + 1) * (inline + 2) =
      n * ((n + 1) * (inline + 1)) + n * (inline + 1) + inline + 1 + ((n + 1) * (n + 1) + (inline + 2)) := by
    ring
  omega

/-! ### Recursions that succeed -/

/-- A fragment is followed in one way only. -/
theorem Enters.unique {selection : Selection} {deferred deferred' : Bool} {name? name?' : Option String}
    {below below' : List Selection} (h : c.Enters objectType selection deferred name? below)
    (h' : c.Enters objectType selection deferred' name?' below') : deferred = deferred' ∧ name? = name?' ∧ below = below' := by
  cases h with
  | inline _ hdefer =>
    cases h' with
    | inline _ hdefer' => exact ⟨hdefer.unique hdefer', rfl, rfl⟩
  | spread _ hdefer hfragment =>
    cases h' with
    | spread _ hdefer' hfragment' =>
      obtain rfl := Option.some.inj (hfragment.symm.trans hfragment')
      exact ⟨hdefer.unique hdefer', rfl, rfl⟩

/-- What is spread among selections is spread at the first or among the others. -/
theorem Spreads.of_cons {plainly : Bool} {selection : Selection} {rest : List Selection} {name : String}
    (h : c.Spreads objectType plainly (selection :: rest) name) :
    (∃ deferred name? below, c.Enters objectType selection deferred name? below ∧
      (deferred = true ∨ name? = none ∨ plainly = true) ∧
        (name? = some name ∨ c.Spreads objectType plainly below name)) ∨ c.Spreads objectType plainly rest name := by
  cases h with
  | here h henters hfollows =>
    rcases List.mem_cons.1 h with rfl | h
    · exact .inl ⟨_, _, _, henters, hfollows.imp_right .inr, .inl rfl⟩
    · exact .inr (.here h henters hfollows)
  | inside h henters hfollows hbelow =>
    rcases List.mem_cons.1 h with rfl | h
    · exact .inl ⟨_, _, _, henters, hfollows, .inr hbelow⟩
    · exact .inr (.inside h henters hfollows hbelow)

theorem map_snd_over (target : Target) (selections : List Selection) : (target.over selections).map Prod.snd = selections := by
  unfold Target.over
  rw [List.map_map]
  exact List.map_id _

variable {work : List (Target × Selection)} {visited visited' final : List String} {next : Nat} {met : List Occurrence}
  {usages : List DeferUsage}

theorem Meets.visited_subset (h : c.Meets objectType work visited next met usages visited') : visited ⊆ visited' := by
  induction h with
  | nil => exact List.Subset.refl _
  | field _ _ ih => exact ih
  | pass _ _ _ ih => exact ih
  | plain _ _ _ _ ihbelow ih => exact List.Subset.trans (List.Subset.trans (List.subset_append_right _ _) ihbelow) ih
  | deferred _ _ _ _ _ ihbelow ih => exact List.Subset.trans ihbelow ih

/-- No fragment leads back to itself that is met below others with `@defer`. -/
theorem Meets.not_defersItself (h : c.Meets objectType work visited next met usages visited') {name : String}
    (hspreads : c.Spreads objectType false (work.map Prod.snd) name) : ¬ c.DefersItself objectType name := by
  induction h generalizing name with
  | nil =>
    cases hspreads with
    | here h => exact absurd h List.not_mem_nil
    | inside h => exact absurd h List.not_mem_nil
  | field _ _ ih =>
    rcases hspreads.of_cons with ⟨_, _, _, henters, -⟩ | hspreads
    · exact absurd henters Enters.not_field
    · exact ih hspreads
  | pass _ h _ ih =>
    rcases hspreads.of_cons with ⟨_, _, _, henters, hfollows, -⟩ | hspreads
    · obtain ⟨rfl, _, rfl, -⟩ := h _ _ _ henters
      exact absurd hfollows (by simp)
    · exact ih hspreads
  | plain henters _ _ _ ihbelow ih =>
    rcases hspreads.of_cons with ⟨_, _, _, henters', hfollows, hwhere⟩ | hspreads
    · obtain ⟨rfl, rfl, rfl⟩ := henters.unique henters'
      rcases hwhere with rfl | hbelow
      · exact absurd hfollows (by simp)
      · exact ihbelow (by rwa [map_snd_over])
    · exact ih hspreads
  | deferred henters _ _ _ _ ihbelow ih =>
    rcases hspreads.of_cons with ⟨_, _, _, henters', -, hwhere⟩ | hspreads
    · obtain ⟨rfl, rfl, rfl⟩ := henters.unique henters'
      rcases hwhere with rfl | hbelow
      · rintro ⟨fragment, hfragment, hself⟩
        obtain ⟨fragment', -, -, hfragment', rfl⟩ := henters.exists_fragment
        obtain rfl := Option.some.inj (hfragment.symm.trans hfragment')
        exact ihbelow (by rwa [map_snd_over]) ⟨_, hfragment, hself⟩
      · exact ihbelow (by rwa [map_snd_over])
    · exact ih hspreads

/-- Something is met along the selections, and the names that are visited then are among those that are visited finally. -/
def Followed (c : CollectionContext) (objectType : String) (final : List String) (selections : List Selection) : Prop :=
  ∃ work visited next met usages visited', c.Meets objectType work visited next met usages visited' ∧
    work.map Prod.snd = selections ∧ visited' ⊆ final

/-- Fragments are followed where they are met, or they were visited. -/
theorem Meets.followed (h : c.Meets objectType work visited next met usages visited') (hfinal : visited' ⊆ final)
    {selection : Selection} (hmem : selection ∈ work.map Prod.snd) {deferred : Bool} {name? : Option String}
    {below : List Selection} (henters : c.Enters objectType selection deferred name? below) :
    c.Followed objectType final below ∨ ∃ name ∈ final, name? = some name := by
  induction h with
  | nil => exact absurd hmem List.not_mem_nil
  | field _ _ ih =>
    rcases List.mem_cons.1 hmem with rfl | hmem
    · exact absurd henters Enters.not_field
    · exact ih hfinal hmem
  | pass _ h hrest ih =>
    rcases List.mem_cons.1 hmem with rfl | hmem
    · obtain ⟨-, name, hname, hvisited⟩ := h _ _ _ henters
      exact .inr ⟨name, hfinal (hrest.visited_subset hvisited), hname⟩
    · exact ih hfinal hmem
  | plain henters' _ hbelow hrest _ ih =>
    rcases List.mem_cons.1 hmem with rfl | hmem
    · obtain ⟨-, -, rfl⟩ := henters'.unique henters
      exact .inl ⟨_, _, _, _, _, _, hbelow, map_snd_over _ _, List.Subset.trans hrest.visited_subset hfinal⟩
    · exact ih hfinal hmem
  | deferred henters' _ _ hbelow hrest _ ih =>
    rcases List.mem_cons.1 hmem with rfl | hmem
    · obtain ⟨-, -, rfl⟩ := henters'.unique henters
      exact .inl ⟨_, _, _, _, _, _, hbelow, map_snd_over _ _, List.Subset.trans hrest.visited_subset hfinal⟩
    · exact ih hfinal hmem

/-- Fragments that are visited on the way are followed. -/
theorem Meets.followed_of_visited (h : c.Meets objectType work visited next met usages visited') (hfinal : visited' ⊆ final)
    {name : String} (hname : name ∈ visited') {fragment : Fragment} (hfragment : c.document.fragment? name = some fragment) :
    name ∈ visited ∨ c.Followed objectType final fragment.selectionSet.selections := by
  induction h with
  | nil => exact .inl hname
  | field _ _ ih => exact ih hfinal hname
  | pass _ _ _ ih => exact ih hfinal hname
  | deferred _ _ _ _ hrest ihbelow ih =>
    rcases ih hfinal hname with hname | hfollowed
    · exact ihbelow (List.Subset.trans hrest.visited_subset hfinal) hname
    · exact .inr hfollowed
  | @plain _ _ _ name? _ _ _ _ _ _ _ _ _ henters _ hbelow hrest ihbelow ih =>
    have hfinal₁ := List.Subset.trans hrest.visited_subset hfinal
    rcases ih hfinal hname with hname | hfollowed
    · rcases ihbelow hfinal₁ hname with hname | hfollowed
      · rcases List.mem_append.1 hname with hname | hname
        · obtain rfl : name? = some name := by simpa using hname
          obtain ⟨fragment', -, -, hfragment', rfl⟩ := henters.exists_fragment
          obtain rfl := Option.some.inj (hfragment.symm.trans hfragment')
          exact .inr ⟨_, _, _, _, _, _, hbelow, map_snd_over _ _, hfinal₁⟩
        · exact .inl hname
      · exact .inr hfollowed
    · exact .inr hfollowed

/-- Where all is met that selections lead to, they do not lead to a fragment that leads back to itself. -/
theorem Meets.not_endless (h : c.Meets objectType work [] next met usages final) :
    ¬ c.Endless objectType (work.map Prod.snd) := by
  have hvisited : ∀ name ∈ final, ∀ fragment, c.document.fragment? name = some fragment →
      c.Followed objectType final fragment.selectionSet.selections := fun name hname fragment hfragment =>
    (h.followed_of_visited (List.Subset.refl _) hname hfragment).resolve_left List.not_mem_nil
  have hbelow : ∀ {selections : List Selection} {selection deferred name? below}, c.Followed objectType final selections →
      selection ∈ selections → c.Enters objectType selection deferred name? below → c.Followed objectType final below := by
    rintro selections selection deferred name? below ⟨_, _, _, _, _, _, hmeets, rfl, hfinal⟩ hmem henters
    rcases hmeets.followed hfinal hmem henters with hfollowed | ⟨name, hname, rfl⟩
    · exact hfollowed
    · obtain ⟨fragment, -, -, hfragment, rfl⟩ := henters.exists_fragment
      exact hvisited name hname fragment hfragment
  -- by induction along the fragments
  have hspread : ∀ {selections : List Selection} {name}, c.Spreads objectType true selections name →
      c.Followed objectType final selections → ∀ fragment, c.document.fragment? name = some fragment →
        c.Followed objectType final fragment.selectionSet.selections := by
    intro selections name hspreads hfollowed
    induction hspreads with
    | here hmem henters =>
      intro fragment hfragment
      obtain ⟨fragment', -, -, hfragment', rfl⟩ := henters.exists_fragment
      obtain rfl := Option.some.inj (hfragment.symm.trans hfragment')
      exact hbelow hfollowed hmem henters
    | inside hmem henters _ _ ih => exact ih (hbelow hfollowed hmem henters)
  rintro ⟨name, hspreads, fragment, hfragment, hself⟩
  obtain ⟨_, _, _, _, _, _, hmeets, hwork, -⟩ :=
    hspread hspreads ⟨_, _, _, _, _, _, h, rfl, List.Subset.refl _⟩ fragment hfragment
  exact hmeets.not_defersItself (hwork ▸ hself) ⟨fragment, hfragment, hself⟩

end CollectionContext

namespace Collector

variable {collector : Collector} {c : CollectionContext} {objectType : String}

/-- Selections whose recursion succeeds do not lead to a fragment that leads back to itself. -/
theorem not_endless_of_runs {work : List (Target × Selection)} {next : Nat} {w : CollectionWalk}
    (h : c.Runs objectType work { nextUsage := next } (.ok (), w)) : ¬ c.Endless objectType (work.map Prod.snd) := by
  obtain ⟨_, _, hmeets, -⟩ := h.meets
  exact hmeets.not_endless

theorem not_endless_of_collectFields {selections : List Selection} {collected : CollectedFields}
    (h : (collector.collectFields c objectType selections).1 = .ok collected) : ¬ c.Endless objectType selections := by
  obtain ⟨⟨result, w⟩, hruns, hfinish⟩ := exists_runs_collectFields (by rw [h]; rintro ⟨⟩)
  cases result with
  | error e =>
    rw [hfinish] at h
    exact absurd (h.symm.trans (finish_eq_error.2 rfl)) (by simp)
  | ok =>
    have hend := not_endless_of_runs hruns
    rwa [CollectionContext.map_snd_over] at hend

/-- Below a group a collection returns. -/
theorem collectBelow_ne_endless {group : FieldGroup} (hend : ¬ c.Endless objectType (group.below.map Prod.snd)) :
    (collector.collectBelow c objectType group).1 ≠ .error .endlessFragments := by
  have hset : ∀ details ∈ group.fields, ∀ set : SelectionSet, details.node.selectionSet = some set →
      ¬ c.Endless objectType set.selections := by
    intro details hdetails set hset hendless
    refine hend (hendless.mono fun selection hselection => ?_)
    refine List.mem_map.2 ⟨(details.target, selection), List.mem_flatMap.2 ⟨details, hdetails, ?_⟩, rfl⟩
    rw [hset]
    exact List.mem_map_of_mem hselection
  intro h
  refine (CollectM.Returns.forM (I := fun _ => True) group.fields (fun details hdetails w _ => ?_) trivial).1
    (finish_eq_error.1 h)
  split
  · rename_i set hsome
    exact ⟨c.walk_ne_endless (hset details hdetails set hsome) details.target w, fun _ _ => trivial⟩
  · exact .pure trivial

/-- What was not collected earlier is collected now. -/
theorem collectSubfields_eq {group : FieldGroup} (h : collector.earlier? objectType group = none) :
    (collector.collectSubfields c objectType group).1 = (collector.collectBelow c objectType group).1 := by
  unfold collectSubfields
  rw [h]
  rcases collector.collectBelow c objectType group with ⟨_ | _, _⟩ <;> rfl

/-- If selections do not lead to a fragment that leads back to itself through `@defer` alone, then the recursion over them
comes to an end, and its outcome is what is collected.  If they do, then it has no result. -/
theorem returns_unless_endless (collector : Collector) (c : CollectionContext) (objectType : String) :
    (∀ selections,
      (¬ c.Endless objectType selections →
        (collector.collectFields c objectType selections).1 ≠ .error .endlessFragments ∧
        ∃ outcome, c.Runs objectType (Target.initial.over selections) { nextUsage := collector.nextUsage } outcome ∧
          collector.collectFields c objectType selections = collector.finish .initial outcome) ∧
      (c.Endless objectType selections →
        (∀ w, ¬ c.Runs objectType (Target.initial.over selections) { nextUsage := collector.nextUsage } (.ok (), w)) ∧
        ∀ collected, (collector.collectFields c objectType selections).1 ≠ .ok collected)) ∧
    ∀ group : FieldGroup,
      (¬ c.Endless objectType (group.below.map Prod.snd) →
        (collector.collectSubfields c objectType group).1 ≠ .error .endlessFragments ∧
        ((∃ collected, collector.earlier? objectType group = some collected) ∨
          ∃ outcome, c.Runs objectType group.below { nextUsage := collector.nextUsage } outcome ∧
            (collector.collectSubfields c objectType group).1 = (collector.finish group.targets outcome).1)) ∧
      (c.Endless objectType (group.below.map Prod.snd) →
        ∀ w, ¬ c.Runs objectType group.below { nextUsage := collector.nextUsage } (.ok (), w)) := by
  refine ⟨fun selections => ⟨fun hend => ?_, fun hend => ⟨fun w hruns => ?_, fun collected h => ?_⟩⟩,
    fun group => ⟨fun hend => ?_, fun hend w hruns => not_endless_of_runs hruns hend⟩⟩
  · have hne : (collector.collectFields c objectType selections).1 ≠ .error .endlessFragments :=
      fun h => c.walk_ne_endless hend .initial _ (finish_eq_error.1 h)
    exact ⟨hne, exists_runs_collectFields hne⟩
  · exact not_endless_of_runs hruns (by rwa [CollectionContext.map_snd_over])
  · exact not_endless_of_collectFields h hend
  · cases hearlier : collector.earlier? objectType group with
    | some collected =>
      unfold collectSubfields
      rw [hearlier]
      exact ⟨by rintro ⟨⟩, .inl ⟨collected, rfl⟩⟩
    | none =>
      have hne : (collector.collectBelow c objectType group).1 ≠ .error .endlessFragments := collectBelow_ne_endless hend
      obtain ⟨outcome, hruns, hfinish⟩ := exists_runs_collectBelow hne
      have hsame := collectSubfields_eq (c := c) hearlier
      refine ⟨by rwa [hsame], .inr ⟨outcome, hruns, by rw [hsame, hfinish]⟩⟩

end Collector

/-! ### Fragments in circles -/

namespace Selection

/-- The directive `@defer` alone. -/
def deferAlone : List Directive := [⟨⟨"defer", .empty 0⟩, [], .empty 0⟩]

/-- The use of a named fragment with `@defer`. -/
def deferredSpreadOf (name : String) : Selection := .spread ⟨⟨name, .empty 0⟩, deferAlone, .empty 0⟩

end Selection

namespace CollectionContext

/-- A fragment on `Query`. -/
def fragmentOf (name : String) (selections : List Selection) : Fragment :=
  ⟨⟨name, .empty 0⟩, ⟨"Query", .empty 0⟩, [], ⟨selections, .empty 0⟩, .empty 0⟩

/-- A document with fragments `F` and `G` that use each other, one of them with `@defer`, and a fragment `H` that uses itself
with `@defer`. -/
def circular : CollectionContext where
  schema := withF.schema
  document := ⟨[.fragment (fragmentOf "F" [.named "a", .deferredSpreadOf "G"]), .fragment (fragmentOf "G" [.spreadOf "F"]),
    .fragment (fragmentOf "H" [.named "a", .deferredSpreadOf "H"])], .empty 0⟩
  vars := []
  operation := .query
  incremental := true

/-- The fragment `H` is followed with `@defer`. -/
theorem enters_circular : circular.Enters "Query" (.deferredSpreadOf "H") true (some "H")
    [.named "a", .deferredSpreadOf "H"] := by
  have hincluded : circular.Includes Selection.deferAlone := rfl
  have hdefers : circular.Defers Selection.deferAlone true := ⟨some {}, rfl, rfl⟩
  have hfragment : circular.document.fragment? "H" = some (fragmentOf "H" [.named "a", .deferredSpreadOf "H"]) := rfl
  have hcondition : circular.conditionHolds (some ⟨"Query", .empty 0⟩) "Query" = true := rfl
  show circular.Enters "Query" (.spread ⟨⟨"H", .empty 0⟩, Selection.deferAlone, .empty 0⟩) true (some "H")
    (fragmentOf "H" [.named "a", .deferredSpreadOf "H"]).selectionSet.selections
  exact .spread hincluded hdefers hfragment hcondition

theorem endless_circular : circular.Endless "Query" [.deferredSpreadOf "H"] :=
  ⟨"H", .here List.mem_cons_self enters_circular (.inl rfl), fragmentOf "H" [.named "a", .deferredSpreadOf "H"], rfl,
    .here (List.mem_cons_of_mem _ List.mem_cons_self) enters_circular (.inl rfl)⟩

/-- Fragments in a circle are collected if one of them is used without `@defer`, and have no result if all are used with
it. -/
theorem circles_collected : ¬ circular.Endless "Query" [.spreadOf "F"] ∧
    (∃ outcome, circular.Runs "Query" (Target.initial.over [.spreadOf "F"]) { nextUsage := 1 } outcome ∧
      ({} : Collector).collectFields circular "Query" [.spreadOf "F"] = ({} : Collector).finish .initial outcome) ∧
    circular.Endless "Query" [.deferredSpreadOf "H"] ∧
    ∀ w, ¬ circular.Runs "Query" (Target.initial.over [.deferredSpreadOf "H"]) { nextUsage := 1 } (.ok (), w) := by
  obtain ⟨hfields, -⟩ := ({} : Collector).returns_unless_endless circular "Query"
  have hend : ¬ circular.Endless "Query" [.spreadOf "F"] := by
    have hok : ((({} : Collector).collectFields circular "Query" [.spreadOf "F"]).1.toOption.map
        fun collected => collected.fields.map Prod.fst) = some ["a"] := by decide +kernel
    rcases hcollected : (({} : Collector).collectFields circular "Query" [.spreadOf "F"]).1 with e | collected
    · rw [hcollected] at hok
      exact absurd hok (by simp [Except.toOption])
    · exact Collector.not_endless_of_collectFields hcollected
  exact ⟨hend, ((hfields _).1 hend).2, endless_circular, ((hfields _).2 endless_circular).1⟩

/-- The field is passed by, and the fragment is followed. -/
theorem step_circular (target : Target) (w : CollectionWalk) :
    (∃ w', (circular.step "Query" target (.named "a")).run.run w = (.ok none, w')) ∧
      ∃ usage w', (circular.step "Query" target (.deferredSpreadOf "H")).run.run w =
        (.ok (some ([.named "a", .deferredSpreadOf "H"], .deferred usage)), w') :=
  ⟨⟨_, rfl⟩, _, _, rfl⟩

/-- The recursion below a fragment that uses itself with `@defer` does not come to an end. -/
theorem not_runs_circular : (∀ outcome,
      ¬ circular.Runs "Query" (Target.initial.over [.deferredSpreadOf "H"]) { nextUsage := 1 } outcome) ∧
    (({} : Collector).collectFields circular "Query" [.deferredSpreadOf "H"]).1 = .error .endlessFragments := by
  -- all selections that the recursion comes to are those of the fragment
  have hnone : ∀ {work w outcome}, circular.Runs "Query" work w outcome →
      (∀ x ∈ work, x.2 = .named "a" ∨ x.2 = .deferredSpreadOf "H") → ∀ x ∈ work, x.2 = .named "a" := by
    have hbelow : ∀ {within : Target}, ∀ x ∈ within.over [.named "a", .deferredSpreadOf "H"],
        x.2 = .named "a" ∨ x.2 = .deferredSpreadOf "H" := by
      simp [Target.over]
    have hcircle : ∀ {within : Target}, ¬ ∀ x ∈ within.over [.named "a", .deferredSpreadOf "H"], x.2 = .named "a" := by
      simp [Target.over, Selection.named, Selection.deferredSpreadOf]
    intro work w outcome hruns
    induction hruns with
    | nil => exact fun _ x hx => absurd hx List.not_mem_nil
    | @fail target selection rest w w' e h =>
      intro hwork
      obtain ⟨⟨_, hfield⟩, _, _, hspread⟩ := step_circular target w
      rcases hwork _ List.mem_cons_self with rfl | rfl
      · cases hfield.symm.trans h
      · cases hspread.symm.trans h
    | @pass target selection rest w w' outcome h _ ih =>
      intro hwork
      obtain ⟨-, _, _, hspread⟩ := step_circular target w
      rcases hwork _ List.mem_cons_self with rfl | rfl
      · exact List.forall_mem_cons.2 ⟨rfl, ih fun x hx => hwork x (List.mem_cons_of_mem _ hx)⟩
      · cases hspread.symm.trans h
    | @failBelow target selection rest below within w w₁ w' e h _ ih =>
      intro hwork
      obtain ⟨⟨_, hfield⟩, _, _, hspread⟩ := step_circular target w
      rcases hwork _ List.mem_cons_self with rfl | rfl
      · cases hfield.symm.trans h
      · cases hspread.symm.trans h
        exact absurd (ih hbelow) hcircle
    | @follow target selection rest below within w w₁ w₂ outcome h _ _ ih =>
      intro hwork
      obtain ⟨⟨_, hfield⟩, _, _, hspread⟩ := step_circular target w
      rcases hwork _ List.mem_cons_self with rfl | rfl
      · cases hfield.symm.trans h
      · cases hspread.symm.trans h
        exact absurd (ih hbelow) hcircle
  have hnot : ∀ outcome,
      ¬ circular.Runs "Query" (Target.initial.over [.deferredSpreadOf "H"]) { nextUsage := 1 } outcome := by
    intro outcome hruns
    have hfield := hnone hruns (by simp [Target.over]) (.initial, .deferredSpreadOf "H") List.mem_cons_self
    cases hfield
  refine ⟨hnot, ?_⟩
  -- any other outcome would be one that the recursion comes to
  by_contra hne
  obtain ⟨outcome, hruns, -⟩ := Collector.exists_runs_collectFields hne
  exact hnot outcome hruns

end CollectionContext

end GraphQL
