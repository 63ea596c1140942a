import GraphQL.Proofs.Execution.CompletionMoves
import GraphQL.Proofs.Meaning.Outcomes

/-!
# Steps that only look

Resolving fields, reading off single values and polling timers and streams leave the publisher, the tasks and the memory
as they are (`Steady`).  What they give is said here without the stage.
-/

namespace GraphQL

open Execution Stage

variable {α β : Type} {c : ExecutionContext}

/-- The step leaves publisher, tasks and memory as they are, and its outcome has a property. -/
def Steady (m : ExecM α) (P : α → Prop) : Prop :=
  ∀ s, Leads m s fun a s' => s.Beside s' ∧ s'.memory = s.memory ∧ P a

namespace Steady

variable {P P' : α → Prop}

theorem imp {m : ExecM α} (h : Steady m P) (himp : ∀ a, P a → P' a) : Steady m P' :=
  fun s => (h s).imp fun a _ ha => ⟨ha.1, ha.2.1, himp a ha.2.2⟩

theorem pure {a : α} (h : P a) : Steady (Pure.pure a) P := fun s => Leads.pure ⟨Beside.refl s, rfl, h⟩

theorem bind {m : ExecM α} {k : α → ExecM β} {R : β → Prop} (h : Steady m P) (hk : ∀ a, P a → Steady (k a) R) :
    Steady (m >>= k) R :=
  fun s => (h s).andThen fun a s' ha =>
    (hk a ha.2.2 s').imp fun _ _ hb => ⟨ha.1.trans hb.1, hb.2.1.trans ha.2.1, hb.2.2⟩

theorem modify {f : ExecStage → ExecStage} (h : ∀ s : ExecStage, s.Beside (f s) ∧ (f s).memory = s.memory) :
    Steady (modify f : ExecM PUnit) fun _ => True :=
  fun s => Leads.modify ⟨(h s).1, (h s).2, trivial⟩

theorem modifyGet {f : ExecStage → α × ExecStage}
    (h : ∀ s : ExecStage, s.Beside (f s).2 ∧ (f s).2.memory = s.memory ∧ P (f s).1) :
    Steady (MonadState.modifyGet f : ExecM α) P :=
  fun s => Leads.modifyGet (h s)

end Steady

theorem steady_noteCall (notice : Notice) :
    Steady (modify (fun s => s.noteCall notice) : ExecM PUnit) fun _ => True :=
  Steady.modify fun s => ⟨noteCall_beside s notice, by cases notice <;> rfl⟩

theorem steady_noteClosed (names : List String) : Steady (noteClosed names) fun _ => True := by
  refine Steady.modify fun s => ⟨noteClosed_beside s names, ?_⟩
  exact List.foldlRecOn (motive := fun t : ExecStage => t.memory = s.memory) names _ rfl fun _ ht _ _ => ht

private theorem memory_noteOpened (s : ExecStage) (names : List String) : (s.noteOpened names).memory = s.memory :=
  List.foldlRecOn (motive := fun t : ExecStage => t.memory = s.memory) names _ rfl fun _ ht _ _ => ht

theorem steady_noteOpened (names : List String) : Steady (noteOpened names) fun _ => True :=
  Steady.modify fun s => ⟨noteOpened_beside s names, memory_noteOpened s names⟩

theorem steady_noteEnded (names : List String) : Steady (noteEnded names) fun _ => True := by
  refine Steady.modify fun s => ⟨noteEnded_beside s names, ?_⟩
  exact List.foldlRecOn (motive := fun t : ExecStage => t.memory = s.memory) names _ rfl fun _ ht _ _ => ht

theorem steady_pollTimer (t : Timer) : Steady (Execution.pollTimer t) fun _ => True := by
  refine Steady.modifyGet fun s => ?_
  show s.Beside (s.pollTimer t).1 ∧ (s.pollTimer t).1.memory = s.memory ∧ True
  unfold Stage.pollTimer
  split
  · split <;> exact ⟨⟨rfl, rfl, rfl⟩, rfl, trivial⟩
  · exact ⟨⟨rfl, rfl, rfl⟩, rfl, trivial⟩

/-! ### Fields -/

theorem steady_call (r : Resolver) (input : ResolverInput) : Steady (call r input) (· = r.result input) := by
  unfold call Resolver.result
  dsimp only
  split
  · exact Steady.pure rfl
  · refine Steady.bind (Steady.modify fun s => ?_) fun _ _ => Steady.pure rfl
    have hnote : s.Beside (s.note (.called input.info.parentType input.info.fieldName input.info.path)) :=
      ⟨rfl, rfl, rfl⟩
    exact ⟨hnote.trans (noteOpened_beside _ _), memory_noteOpened _ _⟩

theorem steady_resolveField (c : ExecutionContext) (parent : Json) (field : Field) (definition : FieldDef)
    (info : FieldInfo) :
    Steady (resolveField c parent field definition info) (· = c.resolution parent field definition info) := by
  unfold resolveField ExecutionContext.resolution
  cases argumentValues c.schema definition.arguments field.arguments c.vars with
  | error e => exact Steady.pure rfl
  | ok arguments =>
    dsimp only
    by_cases hname : info.fieldName = "__typename"
    · rw [if_pos hname, if_pos hname]
      exact Steady.pure rfl
    · rw [if_neg hname, if_neg hname]
      cases c.resolvers.find? info.parentType info.fieldName with
      | none => exact Steady.pure rfl
      | some found =>
        cases found with
        | property => exact Steady.pure rfl
        | resolver r =>
          refine Steady.bind (steady_call _ _) fun resolved hresolved => Steady.pure ?_
          rw [hresolved]

theorem steady_fieldJob (c : ExecutionContext) (o : ObjectFields) (key : String) (group : FieldGroup) :
    Steady (fieldJob c o key group)
      (· = (c.child? o.selected key group).map fun child => child.job o.record o.deferMap) := by
  unfold fieldJob ExecutionContext.child?
  dsimp only [ObjectFields.selected]
  cases c.schema.field? o.typeName group.first.node.name.value with
  | none => exact Steady.pure rfl
  | some definition =>
    refine Steady.bind (steady_resolveField _ _ _ _ _) fun outcome houtcome => ?_
    subst houtcome
    rw [Option.map_some, Option.map_some]
    unfold Child.job Place.site
    dsimp only
    cases c.resolution o.parent group.first.node definition
        ⟨group.first.node.name.value, o.typeName, definition.type.text, o.path.key key⟩ with
    | ok v => exact Steady.pure rfl
    | error e => exact Steady.pure rfl

/-- The children of fields come one after the other. -/
theorem ExecutionContext.children_cons (c : ExecutionContext) (o : Selected) (key : String) (group : FieldGroup)
    (rest : GroupedFieldSet) :
    c.children { o with fields := (key, group) :: rest } =
      ((c.child? o key group).map (key, ·)).toList ++ c.children { o with fields := rest } := by
  show List.filterMap (fun field => (c.child? o field.1 field.2).map (field.1, ·)) ((key, group) :: rest) =
    _ ++ List.filterMap (fun field => (c.child? o field.1 field.2).map (field.1, ·)) rest
  rw [List.filterMap_cons]
  cases c.child? o key group <;> rfl

theorem steady_fieldJobs (c : ExecutionContext) (o : ObjectFields) (fields : GroupedFieldSet) :
    Steady (fieldJobs c o fields)
      (· = (c.children { o.selected with fields := fields }).map fun f => (f.1, f.2.job o.record o.deferMap)) := by
  induction fields with
  | nil => exact Steady.pure rfl
  | cons field rest ih =>
    obtain ⟨key, group⟩ := field
    rw [c.children_cons]
    refine Steady.bind (steady_fieldJob c o key group) fun job? hjob => ?_
    subst hjob
    cases c.child? o.selected key group with
    | none => exact ih
    | some child =>
      refine Steady.bind ih fun jobs hjobs => Steady.pure ?_
      rw [hjobs]
      rfl

/-- The job of fields that are resolved together. -/
def ObjectFields.job (c : ExecutionContext) (o : ObjectFields) : Job :=
  .gather (.object ((c.children o.selected).map Prod.fst)) false
    ((c.children o.selected).map fun f => .running (f.2.job o.record o.deferMap))

theorem steady_selectFields (c : ExecutionContext) (o : ObjectFields) : Steady (selectFields c o) (· = o.job c) := by
  refine Steady.bind (steady_fieldJobs c o o.fields) fun jobs hjobs => Steady.pure ?_
  rw [hjobs, List.map_map, List.map_map]
  rfl

/-- Of fields that are resolved together may become what may become of what they ask for. -/
theorem ObjectFields.comes_job (o : ObjectFields) (told : Error → Prop) (fate : Fate) :
    (o.job c).Comes c told fate ↔ (c.asked o.selected).Comes c told fate := by
  unfold ExecutionContext.asked
  rw [comes_gather_iff, List.map_map]
  show Gathers _ (Job.partsOfSlots c told _) fate ↔ _
  rw [Job.partsOfSlots_eq, List.map_map]
  have hparts : ((c.children o.selected).map (Job.part c told ∘ fun f => .running (f.2.job o.record o.deferMap))) =
      (c.children o.selected).map ((fun child => (Asked.child child).Comes c told) ∘ Prod.snd) := by
    refine List.map_congr_left fun f _ => ?_
    funext fate
    exact propext (Child.comes_job _ _ _ _ _)
  rw [hparts]

/-! ### Leaves and streams -/

theorem steady_singleValue (value : FieldValue) (typeName : String) :
    Steady (singleValue value typeName) (· = value.single typeName) := by
  unfold singleValue FieldValue.single
  cases value with
  | value v => exact Steady.pure rfl
  | later notice ticks outcome => exact Steady.pure rfl
  | list items => exact Steady.bind (steady_noteClosed _) fun _ _ => Steady.pure rfl
  | stream source => exact Steady.bind (steady_noteClosed _) fun _ _ => Steady.pure rfl

theorem steady_completeLeaf (c : ExecutionContext) (typeName : String) (value : FieldValue) :
    Steady (completeLeaf c typeName value) (· = value.single typeName >>= c.leaf typeName) := by
  unfold completeLeaf
  refine Steady.bind (steady_singleValue _ _) fun outcome houtcome => ?_
  subst houtcome
  cases value.single typeName with
  | error e => exact Steady.pure rfl
  | ok v =>
    show Steady _ (· = c.leaf typeName v)
    unfold ExecutionContext.leaf
    dsimp only
    cases c.schema.serializeLeaf typeName v with
    | error e => exact Steady.pure rfl
    | ok serialized =>
      dsimp only
      by_cases hnull : serialized.isNull = true
      · rw [if_pos hnull, if_pos hnull]
        exact Steady.pure rfl
      · rw [if_neg hnull, if_neg hnull]
        exact Steady.pure rfl

/-- What asking a stream for an item tells about its items. -/
def Polled.Tells (before after : ItemSource) : Polled Resolved → Prop
  | .waiting => after = before
  | .ended => before = ⟨[], true⟩
  | .item (.ok v) => before = ⟨.ok v :: after.outcomes, after.ends⟩
  | .item (.error e) => before = ⟨[.error e], true⟩

private theorem beside_pollTimer (s : ExecStage) (t : Timer) :
    s.Beside (s.pollTimer t).1 ∧ (s.pollTimer t).1.memory = s.memory := by
  unfold Stage.pollTimer
  split
  · split <;> exact ⟨⟨rfl, rfl, rfl⟩, rfl⟩
  · exact ⟨⟨rfl, rfl, rfl⟩, rfl⟩

theorem steady_pollStream (source : ItemStream) :
    Steady (pollStream source) fun polled => polled.2.Tells source.source polled.1.source := by
  -- by induction on the steps, with any timer of the first one
  have hadvance : ∀ (s : ExecStage) (steps : List (StreamStep Resolved)) (timer : Option Timer),
      source.finished = false →
      s.Beside (source.advance Resolved.isError s timer steps).1 ∧
        (source.advance Resolved.isError s timer steps).1.memory = s.memory ∧
        (source.advance Resolved.isError s timer steps).2.2.Tells (StreamStep.source source.hangs steps)
          (source.advance Resolved.isError s timer steps).2.1.source := by
    intro s steps
    induction steps generalizing s with
    | nil =>
      intro timer hopen
      unfold ItemStreamOf.advance
      split
      · rename_i hhangs
        refine ⟨Beside.refl s, rfl, ?_⟩
        show ItemStreamOf.source _ = _
        simp [ItemStreamOf.source, StreamStep.source, hopen]
      · rename_i hhangs
        refine ⟨Beside.refl s, rfl, ?_⟩
        show StreamStep.source _ _ = _
        simp [StreamStep.source, hhangs]
    | cons step rest ih =>
      intro timer hopen
      cases step with
      | item outcome =>
        unfold ItemStreamOf.advance
        refine ⟨Beside.refl s, rfl, ?_⟩
        cases outcome with
        | error e => rfl
        | ok v =>
          show StreamStep.source _ _ = _
          simp [StreamStep.source, Resolved.isError, ItemStreamOf.source, hopen]
      | wait ticks =>
        unfold ItemStreamOf.advance
        obtain ⟨hbeside, hmemory⟩ := beside_pollTimer s (timer.getD (.fresh ticks))
        split
        · rename_i s' hpoll
          rw [hpoll] at hbeside hmemory
          obtain ⟨hbeside', hmemory', htells⟩ := ih s' none hopen
          exact ⟨hbeside.trans hbeside', hmemory'.trans hmemory, htells⟩
        · rename_i s' timer' hpoll
          rw [hpoll] at hbeside hmemory
          refine ⟨hbeside, hmemory, ?_⟩
          show ItemStreamOf.source _ = _
          simp [ItemStreamOf.source, hopen]
  have hpoll : ∀ s : ExecStage, s.Beside (source.poll Resolved.isError s).1 ∧
      (source.poll Resolved.isError s).1.memory = s.memory ∧
      (source.poll Resolved.isError s).2.2.Tells source.source (source.poll Resolved.isError s).2.1.source := by
    intro s
    unfold ItemStreamOf.poll
    split
    · rename_i hfinished
      refine ⟨Beside.refl s, rfl, ?_⟩
      show ItemStreamOf.source _ = _
      simp [ItemStreamOf.source, hfinished]
    · rename_i hopen
      have hopen : source.finished = false := by simpa using hopen
      have hsource : source.source = StreamStep.source source.hangs source.steps := by
        simp [ItemStreamOf.source, hopen]
      rw [hsource]
      exact hadvance s source.steps source.timer hopen
  intro s
  obtain ⟨hbeside, hmemory, htells⟩ := hpoll s
  exact Leads.bind (Leads.get (Leads.bind (Leads.set (Leads.pure
    ⟨hbeside.trans (noteOpened_beside _ _), (memory_noteOpened _ _).trans hmemory, htells⟩))))

end GraphQL
