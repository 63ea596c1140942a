import GraphQL.Proofs.Execution.AlongsideSession
import GraphQL.Proofs.Requests

/-!
# Variations are not seen

A variation begins on the same stage as the execution and goes on alongside it, up to the answer and whatever the consumer
does then.  So no variation can be told from the execution: neither one that goes on only where fragments have records, or where
what is remembered would be found anew, nor one that remembers nothing.  At each stage, an execution remembers only what it
would find anew (`ExecutionContext.Recalls`).
-/

namespace GraphQL

open Execution

/-! ### Stages -/

/-- A stage to which an execution comes: after its answer and whatever the consumer did then, or after a response that had to
be given at once. -/
inductive ExecutionContext.ComesTo (c : ExecutionContext) (s : ExecStage) : Prop
  | session {fuel acts out} (h : (Execution.session (c.respondWith fuel) (Task.run c) acts).run c.stage = some (out, s))
  | now {response} (h : (Execution.seen c.respondNow).run c.stage = some (response, s))

/-- The groups that were collected up to a stage, for the operation and below groups, and those for items of streamed
lists. -/
def ExecutionContext.groupsAt (c : ExecutionContext) (s : ExecStage) : List FieldGroup :=
  Collector.groupsOf c.collected ++ s.memory.groups

/-- At a stage, no two groups have the same number, and whatever is remembered is remembered under the number of a group, for
which it is what would be found anew. -/
structure ExecutionContext.Recalls (c : ExecutionContext) (s : ExecStage) : Prop where
  nodup : ((c.groupsAt s).map FieldGroup.id).Nodup
  suits : ∀ g ∈ c.groupsAt s, s.memory.Suits c g
  collected : ∀ e ∈ s.memory.collector.collected, ∃ g ∈ c.groupsAt s, g.id = e.1.2
  streamed : ∀ e ∈ s.memory.streamUsages, ∃ g ∈ c.groupsAt s, g.id = e.1

theorem Recollection.recalls {c : ExecutionContext} (r : Recollection c) {s : ExecStage} (hmemory : s.memory = r.memory)
    (hgroups : (c.groupsAt s).Perm r.groups) : c.Recalls s := by
  refine ⟨(hgroups.map _).nodup_iff.2 r.nodup, fun g hg => ?_, fun e he => ?_, fun e he => ?_⟩
  · rw [hmemory]
    exact r.suits (hgroups.mem_iff.1 hg)
  · rw [hmemory] at he
    obtain ⟨g, hg, hid, -⟩ := r.collected e he
    exact ⟨g, hgroups.mem_iff.2 hg, hid⟩
  · rw [hmemory] at he
    obtain ⟨g, hg, hid, -⟩ := r.streamed e he
    exact ⟨g, hgroups.mem_iff.2 hg, hid⟩

/-! ### Beginnings -/

variable (v : Variation) (c : ExecutionContext)

/-- What is recalled once the fields of an operation are collected. -/
structure Recollection.Opens {c : ExecutionContext} (r : Recollection c) : Prop where
  groups : r.groups = Collector.groupsOf c.collected
  forgotten : r.memory.groups = []

/-- The same operation begins in both. -/
theorem alongside_beginOperation : ∃ r : Recollection c, r.Opens ∧
    AlongsideFrom ⟨r, r⟩ c.stage c.stage (beginOperation c) (v.beginOperation c) Progress.Counterpart := by
  obtain ⟨r, hmemory, hgroups⟩ := Recollection.collectFields c
  have hforgotten : r.memory.groups = [] := by
    have hgives := Collector.collectFields_gives {} c.collection c.rootType c.operation.selectionSet.selections
    rw [hmemory, Memory.groups, hgives.collected]
    rfl
  refine ⟨r, ⟨hgroups, hforgotten⟩, ?_⟩
  have hs : Stage.Counterpart ⟨r, r⟩ { c.stage with memory := r.memory } { c.stage with memory := r.memory } :=
    .mk rfl .nil .nil .nil
  have hsubset : ∀ {outcome}, r.groups = Collector.groupsOf outcome → ∀ collected, outcome = .ok collected →
      collected.allFields.map Prod.snd ⊆ r.groups := by
    rintro _ hgroups collected rfl
    rw [hgroups]
    exact List.Subset.refl _
  have hfound := CollectedFields.counterpart_initially (w := ⟨r, r⟩) Nat.one_pos Nat.one_pos rfl rfl (hsubset hgroups)
    (hsubset hgroups)
  rcases hfields : ({} : Collector).collectFields c.collection c.rootType c.operation.selectionSet.selections with
    ⟨outcome, collector⟩
  rw [hfields] at hmemory hfound
  unfold beginOperation Variation.beginOperation
  refine .get ?_
  dsimp only
  rw [show c.stage.memory.collector = {} from rfl, hfields]
  refine .set ?_
  rw [show { c.stage.memory with collector := collector } = r.memory from hmemory.symm]
  suffices h : Alongside ⟨r, r⟩ _ _ Progress.Counterpart from h _ _ hs
  rcases hfound with ⟨e, rfl, -⟩ | ⟨collected, collected', S, rfl, hsame, hfound, hcovers⟩
  · exact .pure (.done _)
  · obtain rfl := Except.ok.inj hsame
    have hpositive : DeferMap.Positive [] := rfl
    refine alongside_report hfound ⟨hpositive, hpositive⟩ hcovers _ _ fun n n' sets sets' hfields hsets => ?_
    have ho : ObjectFields.Counterpart _ ⟨c.rootType, c.rootValue, .root, collected.fields, .initial, n⟩ _ := .mk hfields
    have hspawn := alongside_spawnFieldSets ho hsets
    cases c.operation.kind with
    | mutation =>
      simp only [pure_bind]
      exact .same hspawn fun _ => .pure (.go (.between ho hfields))
    | _ =>
      refine (alongside_selectFields ho).bind ?_
      rintro w job job' - ⟨rfl, hjob⟩
      exact .same hspawn fun _ => .pure (.go hjob)

/-! ### Sessions -/

theorem alongside_session (fuel : Nat) (acts : List Act) : ∃ r : Recollection c, r.Opens ∧
    AlongsideFrom ⟨r, r⟩ c.stage c.stage (session (c.respondWith fuel) (Task.run c) acts)
      (session (v.respondWith c fuel) (v.runTask c) acts) fun _ out out' => out = out' := by
  obtain ⟨r, hr, hbegins⟩ := alongside_beginOperation v c
  have hrespond : AlongsideFrom ⟨r, r⟩ c.stage c.stage (c.respondWith fuel) (v.respondWith c fuel) fun _ a a' => a = a' := by
    refine hbegins.bind ?_
    rintro w _ _ - (⟨outcome⟩ | ⟨hjob⟩)
    · refine (alongside_answer outcome).bind ?_
      rintro w a _ - rfl
      exact .pure rfl
    · exact alongside_awaitAnswer fuel fuel hjob
  refine ⟨r, hr, hrespond.bind ?_⟩
  rintro w answer _ - rfl
  refine (alongside_see none).bind ?_
  rintro w sight _ - rfl
  refine (alongside_acts acts).bind ?_
  rintro w sights _ - rfl
  exact .pure rfl

/-- An answer that had to be given at once is a response, or is dropped. -/
theorem alongside_answerNow {w : Recollections c} (outcome : Except Error Json) {k : Answer → ExecM Response}
    (hsingle : ∀ response, k (.single response) = Pure.pure response)
    (hincremental : ∀ initial, k (.incremental initial) = do
      modify Stage.cancel
      return SyncError.severalResults.toResponse) :
    Alongside w (answer outcome >>= k) (answer outcome >>= k) fun _ a a' => a = a' := by
  refine (alongside_answer outcome).bind ?_
  rintro w a _ - rfl
  cases a with
  | single response =>
    rw [hsingle]
    exact .pure rfl
  | incremental initial =>
    rw [hincremental]
    refine Alongside.bind (Q := fun _ _ _ => True) ?_ fun _ _ _ _ _ => .pure rfl
    exact .modify (fun _ _ hs => hs.cancel Task.Counterpart.alike) trivial

theorem alongside_respondNow : ∃ r : Recollection c, r.Opens ∧
    AlongsideFrom ⟨r, r⟩ c.stage c.stage (seen c.respondNow) (seen (v.respondNow c)) fun _ out out' => out = out' := by
  obtain ⟨r, hr, hbegins⟩ := alongside_beginOperation v c
  have hrespond : AlongsideFrom ⟨r, r⟩ c.stage c.stage c.respondNow (v.respondNow c) fun _ a a' => a = a' := by
    refine hbegins.bind ?_
    rintro w _ _ - (⟨outcome⟩ | ⟨hjob⟩)
    · simp only [pure_bind]
      exact alongside_answerNow c outcome (fun _ => rfl) fun _ => rfl
    · refine (alongside_runInitial _ _ hjob).bind ?_
      rintro w _ _ - (⟨outcome⟩ | ⟨hjob⟩)
      · exact alongside_answerNow c outcome (fun _ => rfl) fun _ => rfl
      · exact (alongside_dropInitial hjob).bind fun _ _ _ _ _ => .pure rfl
  refine ⟨r, hr, hrespond.bind ?_⟩
  rintro w response _ - rfl
  refine (alongside_see none).bind ?_
  rintro w sight _ - rfl
  exact .pure rfl

section Main

variable {v c} {α : Type}

/-- Alongside each other from the beginning, two executions give the same. -/
theorem AlongsideFrom.outcome_eq {w : Recollections c} {x x' : ExecM α}
    (h : AlongsideFrom w c.stage c.stage x x' fun _ a a' => a = a') : x'.outcome c = x.outcome c := by
  unfold AlongsideFrom at h
  unfold ExecM.outcome
  generalize x.run c.stage = o at h
  generalize x'.run c.stage = o' at h
  cases h with
  | none => rfl
  | some h =>
    obtain ⟨-, -, -, heq⟩ := h
    exact congrArg some heq.symm

/-- An execution that began with an operation recalls what it collected. -/
theorem AlongsideFrom.recalls {r : Recollection c} (hr : r.Opens) {x x' : ExecM α} {Q : Recollections c → α → α → Prop}
    (h : AlongsideFrom ⟨r, r⟩ c.stage c.stage x x' Q) {out : α} {s : ExecStage} (hrun : x.run c.stage = some (out, s)) :
    c.Recalls s := by
  unfold AlongsideFrom at h
  rw [hrun] at h
  generalize x'.run c.stage = o' at h
  cases h with
  | some h =>
    obtain ⟨w, hlater, hs, -⟩ := h
    obtain ⟨more, hgroups, hkept⟩ := hlater.plain
    refine w.plain.recalls hs.memory_eq.1 ?_
    unfold ExecutionContext.groupsAt
    rw [hs.memory_eq.1, hgroups, ← hr.groups]
    have hperm := hkept trivial
    rw [hr.forgotten, List.append_nil] at hperm
    exact hperm.append_left _

/-- At each stage, what is remembered is what would be found anew. -/
theorem ExecutionContext.ComesTo.recalls {s : ExecStage} (h : c.ComesTo s) : c.Recalls s := by
  cases h with
  | session h =>
    obtain ⟨r, hr, halongside⟩ := alongside_session {} c _ _
    exact halongside.recalls hr h
  | now h =>
    obtain ⟨r, hr, halongside⟩ := alongside_respondNow {} c
    exact halongside.recalls hr h

/-- No variation can be seen. -/
theorem Variation.unseen (v : Variation) (c : ExecutionContext) : v.Unseen c := by
  refine ⟨fun fuel acts => ?_, ?_⟩
  · obtain ⟨r, -, halongside⟩ := alongside_session v c fuel acts
    exact halongside.outcome_eq
  · obtain ⟨r, -, halongside⟩ := alongside_respondNow v c
    exact halongside.outcome_eq

end Main

/-- No fragment is missing.  Whenever an execution reports a use of `@defer`, it stands in the initial result or in a fragment
that has a record, and whenever it reports a set of fields, the set has a target, and each of its targets is a fragment that
has a record: an execution that goes on only then gives the same, whatever its fuel is and whatever its consumer does. -/
theorem ExecutionContext.unseen_strict (c : ExecutionContext) : Variation.Unseen { strict := true } c :=
  Variation.unseen _ c

/-- What is remembered is what would be found anew.  Whenever an execution comes to a stage, no two of its groups have the same
number, and whatever it remembers under the number of a group is what it would find anew for this group, up to the numbers that
are handed out.  It is so whenever the execution looks for something: one that goes on only then gives the same.  Therefore
one that forgets everything before it looks for something gives the same, too, at the same times. -/
theorem ExecutionContext.recalls_unseen (c : ExecutionContext) :
    (∀ s, c.ComesTo s → c.Recalls s) ∧ Variation.Unseen { careful := true } c ∧ Variation.Unseen { forgetful := true } c :=
  ⟨fun _ h => h.recalls, Variation.unseen _ c, Variation.unseen _ c⟩

/-- Two cats, whose names are deferred. -/
def deferredNames : ExecutionContext :=
  .ofSelections [.ofFields "Query" [("cats", .list (.named "Cat"))], .ofFields "Cat" [("name", .named "String")]] []
    (.object [("cats", .array [.object [("name", .string "Tom")], .object [("name", .string "Kit")]])])
    [.named "cats" [.deferred [.named "name"]]]

/-- The fields of the cats in `deferredNames` are collected once, for both of them. -/
theorem recalls_deferredNames : ∃ s, deferredNames.ComesTo s ∧ s.memory.collector.collected.map Prod.fst = [("Cat", 0)] ∧
    deferredNames.Recalls s := by
  have hrun : ((Execution.session (deferredNames.respondWith 10) (Task.run deferredNames) [.pull 10 10]).run
      deferredNames.stage).map (fun p => p.2.memory.collector.collected.map Prod.fst) = some [("Cat", 0)] := by
    decide +kernel
  obtain ⟨⟨out, s⟩, hsession, hcollected⟩ := Option.map_eq_some_iff.1 hrun
  exact ⟨s, .session hsession, hcollected, deferredNames.recalls_unseen.1 s (.session hsession)⟩

end GraphQL
