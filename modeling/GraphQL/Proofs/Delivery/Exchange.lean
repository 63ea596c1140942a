import GraphQL.Delivery.Output
import GraphQL.Proofs.Delivery.Inbox
import GraphQL.Resolution.ItemStream
import Mathlib.Data.List.Forall2

/-!
# Stages with other work

To those that do not run a piece of work it matters by its deadlines, the stream that it drives, what is open in it, and its
hook (`Work.Alike`).  Two stages are alike if work that is alike stands in the same places of both, and they differ in
nothing else but in what is remembered (`Stage.Alike`).  They stay so whatever is done to both of them.
-/

namespace GraphQL

variable {ω ε α : Type}

/-- Pieces of work that do not differ in what matters to those that do not run them. -/
structure Work.Alike [Work ω] (a b : ω) : Prop where
  deadlines : Work.deadlines a = Work.deadlines b
  drives : Work.drives a = Work.drives b
  openStreams : Work.openStreams a = Work.openStreams b
  hook : Work.hook a = Work.hook b

/-- What stands for each other is mapped to the same. -/
theorem map_eq_of_forall₂ {α β γ : Type} {R : α → β → Prop} {f : α → γ} {g : β → γ} (hfg : ∀ x y, R x y → f x = g y)
    {xs : List α} {ys : List β} (h : List.Forall₂ R xs ys) : xs.map f = ys.map g := by
  rw [← List.forall₂_eq_eq_eq]
  exact List.rel_map hfg h

theorem isEmpty_eq_of_forall₂ {α β : Type} {R : α → β → Prop} {xs : List α} {ys : List β} (h : List.Forall₂ R xs ys) :
    ys.isEmpty = xs.isEmpty := by
  cases h <;> rfl

/-- Sorting keeps that elements stand for each other if they compare alike. -/
theorem forall₂_mergeSort {α β : Type} {R : α → β → Prop} {le : α → α → Bool} {le' : β → β → Bool}
    (hle : ∀ {a a' b b'}, R a b → R a' b' → le a a' = le' b b') {xs : List α} {ys : List β} (h : List.Forall₂ R xs ys) :
    List.Forall₂ R (xs.mergeSort le) (ys.mergeSort le') := by
  obtain ⟨pairs, rfl, rfl, hpairs⟩ : ∃ pairs : List (α × β), xs = pairs.map Prod.fst ∧ ys = pairs.map Prod.snd ∧
      ∀ p ∈ pairs, R p.1 p.2 := by
    induction h with
    | nil => exact ⟨[], rfl, rfl, fun _ hp => absurd hp List.not_mem_nil⟩
    | @cons x y _ _ hxy _ ih =>
      obtain ⟨pairs, rfl, rfl, hpairs⟩ := ih
      refine ⟨(x, y) :: pairs, rfl, rfl, fun p hp => ?_⟩
      rcases List.mem_cons.1 hp with rfl | hp
      · exact hxy
      · exact hpairs p hp
  rw [← List.map_mergeSort (r := fun p q => le p.1 q.1) fun _ _ _ _ => rfl,
    ← List.map_mergeSort (r := fun p q => le p.1 q.1) fun p hp q hq => hle (hpairs p hp) (hpairs q hq)]
  rw [List.forall₂_map_left_iff, List.forall₂_map_right_iff, List.forall₂_same]
  exact fun p hp => hpairs p ((List.mergeSort_perm _ _).mem_iff.1 hp)

namespace Stage

/-- The stage with other work and another memory. -/
def dressed (s : Stage ω ε) (inbox : List ω) (work : WorkSet ω) (memory : ε) : Stage ω ε :=
  { s with publisher := s.publisher.withInbox inbox, work := work, memory := memory }

/-- Stages with work that stands for each other in the same places, and with two memories. -/
inductive Alike (T : ω → ω → Prop) (memory memory' : ε) (s : Stage ω ε) : Stage ω ε → Prop
  | mk {inbox ready waiting} (hmemory : s.memory = memory) (hinbox : List.Forall₂ T s.publisher.inbox inbox)
      (hready : List.Forall₂ T s.work.ready ready) (hwaiting : List.Forall₂ T s.work.waiting waiting) :
      Alike T memory memory' s (s.dressed inbox ⟨ready, waiting⟩ memory')

/-! ### What does not concern the work -/

/-- What has nothing to do with the work and the memory of a stage. -/
def Blind (f : Stage ω ε → Stage ω ε × α) : Prop :=
  ∀ s inbox work memory, f (s.dressed inbox work memory) = ((f s).1.dressed inbox work memory, (f s).2)

namespace Blind

variable {f : Stage ω ε → Stage ω ε × α}

/-- Work and memory stay as they are. -/
theorem eq_dressed (hf : Blind f) (s : Stage ω ε) : (f s).1 = (f s).1.dressed s.publisher.inbox s.work s.memory :=
  congrArg Prod.fst (hf s s.publisher.inbox s.work s.memory)

theorem publisher {f : Publisher ω → Publisher ω × α}
    (hf : ∀ p inbox, f (p.withInbox inbox) = ((f p).1.withInbox inbox, (f p).2)) :
    Blind (ε := ε) fun s => ({ s with publisher := (f s.publisher).1 }, (f s.publisher).2) := by
  intro s inbox work memory
  have hs : f (s.dressed inbox work memory).publisher = _ := hf s.publisher inbox
  dsimp only
  rw [hs]
  rfl

/-- Each of some pieces of news is noted. -/
theorem foldl {β : Type} {f : Stage ω ε → β → Stage ω ε}
    (hf : ∀ s x inbox work memory, f (s.dressed inbox work memory) x = (f s x).dressed inbox work memory) (xs : List β)
    (s : Stage ω ε) (inbox : List ω) (work : WorkSet ω) (memory : ε) :
    xs.foldl f (s.dressed inbox work memory) = (xs.foldl f s).dressed inbox work memory := by
  induction xs generalizing s with
  | nil => rfl
  | cons x xs ih => rw [List.foldl_cons, List.foldl_cons, hf, ih]

end Blind

section Dressed

variable (s : Stage ω ε) (inbox : List ω) (work : WorkSet ω) (memory : ε)

theorem noteCall_dressed (notice : Notice) :
    (s.dressed inbox work memory).noteCall notice = (s.noteCall notice).dressed inbox work memory := by
  cases notice <;> rfl

theorem noteClosed_dressed (names : List String) :
    (s.dressed inbox work memory).noteClosed names = (s.noteClosed names).dressed inbox work memory :=
  Blind.foldl (fun _ _ _ _ _ => rfl) names s inbox work memory

theorem noteOpened_dressed (names : List String) :
    (s.dressed inbox work memory).noteOpened names = (s.noteOpened names).dressed inbox work memory :=
  Blind.foldl (fun _ _ _ _ _ => rfl) names s inbox work memory

theorem noteEnded_dressed (names : List String) :
    (s.dressed inbox work memory).noteEnded names = (s.noteEnded names).dressed inbox work memory :=
  Blind.foldl (fun _ _ _ _ _ => rfl) names s inbox work memory

theorem fire_dressed (hook : HookId) :
    (s.dressed inbox work memory).fire hook = (s.fire hook).dressed inbox work memory := by
  unfold fire
  rw [show (s.dressed inbox work memory).hooks = s.hooks from rfl]
  split <;> rfl

theorem retire_dressed (hook : HookId) :
    (s.dressed inbox work memory).retire hook = (s.retire hook).dressed inbox work memory := by
  unfold retire
  rw [show (s.dressed inbox work memory).hooks = s.hooks from rfl]
  split <;> rfl

theorem fireAny_dressed (hook : Option HookId) :
    (s.dressed inbox work memory).fireAny hook = (s.fireAny hook).dressed inbox work memory := by
  cases hook with
  | none => rfl
  | some hook => exact fire_dressed s inbox work memory hook

theorem pollTimer_dressed (t : Timer) :
    (s.dressed inbox work memory).pollTimer t = ((s.pollTimer t).1.dressed inbox work memory, (s.pollTimer t).2) := by
  cases t with
  | fresh ticks =>
    unfold pollTimer
    dsimp only
    split <;> rfl
  | waiting deadline => rfl

theorem poll_dressed {β : Type} (isError : β → Bool) (source : ItemStreamOf β) :
    source.poll isError (s.dressed inbox work memory) =
      ((source.poll isError s).1.dressed inbox work memory, (source.poll isError s).2) := by
  have hadvance : ∀ (steps : List (StreamStep β)) (timer : Option Timer) (s : Stage ω ε),
      source.advance isError (s.dressed inbox work memory) timer steps =
        ((source.advance isError s timer steps).1.dressed inbox work memory, (source.advance isError s timer steps).2) := by
    intro steps
    induction steps with
    | nil =>
      intro timer s
      unfold ItemStreamOf.advance
      split <;> rfl
    | cons step rest ih =>
      intro timer s
      cases step with
      | item outcome => rfl
      | wait ticks =>
        unfold ItemStreamOf.advance
        rw [pollTimer_dressed]
        rcases s.pollTimer (timer.getD (.fresh ticks)) with ⟨s₁, timer₁⟩
        cases timer₁ with
        | none => exact ih none s₁
        | some timer₁ => rfl
  unfold ItemStreamOf.poll
  split
  · rfl
  · exact hadvance _ _ s

end Dressed

namespace Alike

variable {T : ω → ω → Prop} {memory memory' : ε} {s s' : Stage ω ε}

theorem mono {T' : ω → ω → Prop} (h : Alike T memory memory' s s') (hT : ∀ {a b}, T a b → T' a b) :
    Alike T' memory memory' s s' := by
  obtain ⟨hmemory, hinbox, hready, hwaiting⟩ := h
  exact ⟨hmemory, hinbox.imp fun _ _ ht => hT ht, hready.imp fun _ _ ht => hT ht, hwaiting.imp fun _ _ ht => hT ht⟩

theorem blind {f : Stage ω ε → Stage ω ε × α} (hf : Blind f) (h : Alike T memory memory' s s') :
    Alike T memory memory' (f s).1 (f s').1 ∧ (f s).2 = (f s').2 := by
  obtain ⟨hmemory, hinbox, hready, hwaiting⟩ := h
  rw [hf]
  refine ⟨?_, rfl⟩
  generalize hs : (f s).1 = s₁
  have hself := hf.eq_dressed s
  rw [hs] at hself
  rw [hself]
  exact .mk (s := s₁.dressed s.publisher.inbox s.work s.memory) hmemory hinbox hready hwaiting

theorem change {f : Stage ω ε → Stage ω ε}
    (hf : ∀ s inbox work memory, f (s.dressed inbox work memory) = (f s).dressed inbox work memory)
    (h : Alike T memory memory' s s') : Alike T memory memory' (f s) (f s') :=
  (blind (f := fun s => (f s, ())) (fun s inbox work memory => congrArg (·, ()) (hf s inbox work memory)) h).1

/-- Work that is ready, and work that waits, is exchanged for other work. -/
theorem withWork {ready ready' waiting waiting' : List ω} (h : Alike T memory memory' s s')
    (hready : List.Forall₂ T ready ready') (hwaiting : List.Forall₂ T waiting waiting') :
    Alike T memory memory' { s with work := ⟨ready, waiting⟩ } { s' with work := ⟨ready', waiting'⟩ } := by
  obtain ⟨hmemory, hinbox, -, -⟩ := h
  exact .mk (s := { s with work := ⟨ready, waiting⟩ }) hmemory hinbox hready hwaiting

theorem withInbox {inbox inbox' : List ω} (h : Alike T memory memory' s s') (hinbox : List.Forall₂ T inbox inbox') :
    Alike T memory memory' { s with publisher := s.publisher.withInbox inbox }
      { s' with publisher := s'.publisher.withInbox inbox' } := by
  obtain ⟨hmemory, -, hready, hwaiting⟩ := h
  exact .mk (s := { s with publisher := s.publisher.withInbox inbox }) hmemory hinbox hready hwaiting

theorem withMemory (h : Alike T memory memory' s s') (m m' : ε) :
    Alike T m m' { s with memory := m } { s' with memory := m' } := by
  obtain ⟨-, hinbox, hready, hwaiting⟩ := h
  exact .mk (s := { s with memory := m }) rfl hinbox hready hwaiting

theorem memory_eq (h : Alike T memory memory' s s') : s.memory = memory ∧ s'.memory = memory' := by
  obtain ⟨hmemory, -, -, -⟩ := h
  exact ⟨hmemory, rfl⟩

theorem inbox (h : Alike T memory memory' s s') : List.Forall₂ T s.publisher.inbox s'.publisher.inbox := by
  obtain ⟨-, hinbox, -, -⟩ := h
  exact hinbox

theorem ready (h : Alike T memory memory' s s') : List.Forall₂ T s.work.ready s'.work.ready := by
  obtain ⟨-, -, hready, -⟩ := h
  exact hready

theorem waiting (h : Alike T memory memory' s s') : List.Forall₂ T s.work.waiting s'.work.waiting := by
  obtain ⟨-, -, -, hwaiting⟩ := h
  exact hwaiting

theorem all (h : Alike T memory memory' s s') : List.Forall₂ T s.work.all s'.work.all :=
  List.rel_append h.ready h.waiting

/-- Nothing else differs. -/
theorem same (h : Alike T memory memory' s s') : s'.now = s.now ∧ s'.log = s.log ∧ s'.outputDone = s.outputDone := by
  obtain ⟨-, -, -, -⟩ := h
  exact ⟨rfl, rfl, rfl⟩

/-- What is read off the publishers without a look at the inbox is the same. -/
theorem read (h : Alike T memory memory' s s') (read : Publisher ω → α)
    (hread : ∀ p inbox, read (p.withInbox inbox) = read p) : read s'.publisher = read s.publisher := by
  obtain ⟨-, -, -, -⟩ := h
  exact hread _ _

theorem isEmpty_inbox (h : Alike T memory memory' s s') : s'.publisher.inbox.isEmpty = s.publisher.inbox.isEmpty :=
  isEmpty_eq_of_forall₂ h.inbox

theorem isEmpty_work (h : Alike T memory memory' s s') : s'.work.isEmpty = s.work.isEmpty := by
  unfold WorkSet.isEmpty
  rw [isEmpty_eq_of_forall₂ h.ready, isEmpty_eq_of_forall₂ h.waiting]

theorem hasReady_eq (h : Alike T memory memory' s s') : s'.publisher.hasReady = s.publisher.hasReady := by
  unfold Publisher.hasReady
  rw [h.read Publisher.released fun _ _ => rfl, h.isEmpty_inbox]

/-! ### What is done to both -/

theorem takeInbox (h : Alike T memory memory' s s') : Alike T memory memory' s.takeInbox s'.takeInbox :=
  (h.withInbox .nil).withWork (List.rel_append h.ready h.inbox) h.waiting

variable [Work ω] (hT : ∀ {a b : ω}, T a b → Work.Alike a b)
include hT

theorem dropWork {a b : ω} (h : Alike T memory memory' s s') (hwork : T a b) :
    Alike T memory memory' (s.dropWork a) (s'.dropWork b) := by
  unfold Stage.dropWork
  rw [(hT hwork).openStreams, (hT hwork).hook]
  have hclosed := change (f := fun s => s.noteClosed (Work.openStreams b))
    (fun s inbox work memory => noteClosed_dressed s inbox work memory _) h
  exact change (f := fun s => s.fireAny (Work.hook b)) (fun s inbox work memory => fireAny_dressed s inbox work memory _) hclosed

theorem dropAll {xs ys : List ω} (h : Alike T memory memory' s s') (hwork : List.Forall₂ T xs ys) :
    Alike T memory memory' (s.dropAll xs) (s'.dropAll ys) := by
  induction hwork generalizing s s' with
  | nil => exact h
  | cons hab _ ih => exact ih (h.dropWork hT hab)

theorem closeStream (h : Alike T memory memory' s s') (id : StreamId) :
    Alike T memory memory' (s.closeStream id) (s'.closeStream id) := by
  have hstream := h.read (·.stream? id) fun _ _ => rfl
  have hfired := change (f := fun s => s.fireAny ((s'.publisher.stream? id).bind StreamRecord.hook))
    (fun s inbox work memory => fireAny_dressed s inbox work memory _) h
  have hkeep : ∀ {xs ys : List ω}, List.Forall₂ T xs ys →
      List.Forall₂ T (xs.filter fun work => Work.drives work ≠ some id) (ys.filter fun work => Work.drives work ≠ some id) :=
    fun hwork => List.rel_filter (fun a b hab => by simp [(hT hab).drives]) hwork
  unfold Stage.closeStream
  rw [← hstream]
  exact (hfired.withInbox (hkeep hfired.inbox)).withWork (hkeep hfired.ready) (hkeep hfired.waiting)

theorem closeStreams (h : Alike T memory memory' s s') (ids : List StreamId) :
    Alike T memory memory' (s.closeStreams ids) (s'.closeStreams ids) := by
  induction ids generalizing s s' with
  | nil => exact h
  | cons id ids ih => exact ih (h.closeStream hT id)

theorem publishAndClose {f : Publisher ω → Publisher ω × List StreamId}
    (hf : ∀ p inbox, f (p.withInbox inbox) = ((f p).1.withInbox inbox, (f p).2)) (h : Alike T memory memory' s s') :
    Alike T memory memory' (s.publishAndClose f) (s'.publishAndClose f) := by
  obtain ⟨hpublished, heq⟩ := blind (Blind.publisher hf) h
  unfold Stage.publishAndClose
  dsimp only at hpublished heq ⊢
  rw [heq]
  exact hpublished.closeStreams hT _

theorem spawn {a b : ω} (h : Alike T memory memory' s s') (hwork : T a b) :
    Alike T memory memory' (s.spawn a) (s'.spawn b) := by
  have hclosed := h.read Publisher.closed fun _ _ => rfl
  unfold Stage.spawn
  rw [hclosed]
  split
  · exact h.dropWork hT hwork
  · exact h.withInbox (List.rel_append h.inbox (.cons hwork .nil))

theorem closeInbox (h : Alike T memory memory' s s') : Alike T memory memory' s.closeInbox s'.closeInbox := by
  have hclosed := change (f := fun s => { s with publisher := { s.publisher with closed := true } }) (fun _ _ _ _ => rfl) h
  exact (hclosed.withInbox .nil).dropAll hT h.inbox

theorem close (h : Alike T memory memory' s s') : Alike T memory memory' s.close s'.close := by
  have hsize := h.read (·.streams.size) fun _ _ => rfl
  unfold Stage.close
  rw [hsize]
  exact (h.closeStreams hT _).closeInbox hT

theorem dropTaken (h : Alike T memory memory' s s') : Alike T memory memory' s.dropTaken s'.dropTaken :=
  (h.withWork .nil .nil).dropAll hT h.all

theorem finish (h : Alike T memory memory' s s') : Alike T memory memory' s.finish s'.finish :=
  change (f := fun s => { s with outputDone := true }) (fun _ _ _ _ => rfl) ((h.dropTaken hT).close hT)

theorem cancel (h : Alike T memory memory' s s') : Alike T memory memory' s.cancel s'.cancel := by
  unfold Stage.cancel
  rw [h.same.2.2]
  split
  · exact h
  · exact h.finish hT

theorem nextTime?_eq (h : Alike T memory memory' s s') (others : List Deadline) :
    s.nextTime? others = s'.nextTime? others := by
  have hdeadlines : s.work.all.map Work.deadlines = s'.work.all.map Work.deadlines :=
    map_eq_of_forall₂ (f := Work.deadlines) (g := Work.deadlines) (fun _ _ hab => (hT hab).deadlines) h.all
  unfold Stage.nextTime?
  rw [h.same.1, List.flatMap_def, List.flatMap_def, hdeadlines]

theorem advanceTo (h : Alike T memory memory' s s') (time : Nat) :
    Alike T memory memory' (s.advanceTo time) (s'.advanceTo time) := by
  have hdue : ∀ {a b : ω}, T a b → firstDue? time (Work.deadlines a) = firstDue? time (Work.deadlines b) :=
    fun hab => by rw [(hT hab).deadlines]
  have hwoken : List.Forall₂ T (dueFirst time Work.deadlines s.work.waiting) (dueFirst time Work.deadlines s'.work.waiting) := by
    unfold dueFirst
    refine List.rel_map (R := fun a b : Nat × ω => a.1 = b.1 ∧ T a.2 b.2) (fun _ _ hab => hab.2) ?_
    refine forall₂_mergeSort (fun hab hab' => by rw [hab.1, hab'.1]) ?_
    refine List.rel_filterMap (fun a b hab => ?_) h.waiting
    rw [hdue hab]
    cases firstDue? time (Work.deadlines b) with
    | none => exact .none
    | some order => exact .some ⟨rfl, hab⟩
  have hnow := change (f := fun s => { s with now := time }) (fun _ _ _ _ => rfl) h
  exact hnow.withWork (List.rel_append h.ready hwoken) (List.rel_filter (fun a b hab => by simp [hdue hab]) h.waiting)

theorem answerData (h : Alike T memory memory' s s') (data : Json) :
    Alike T memory memory' (s.answerData data).1 (s'.answerData data).1 ∧ (s.answerData data).2 = (s'.answerData data).2 := by
  obtain ⟨hpublished, heq⟩ := blind (Blind.publisher (f := fun p => (p.publishChildren .initial).takeErrors)
    fun p inbox => by rw [Publisher.publishChildren_withInbox, Publisher.takeErrors_withInbox]) h
  have hpending := hpublished.read Publisher.hasPending fun _ _ => rfl
  unfold Stage.answerData
  dsimp only at hpublished heq hpending ⊢
  rw [hpending, heq]
  split
  · exact ⟨hpublished, rfl⟩
  · exact ⟨(hpublished.closeInbox hT).dropTaken hT, rfl⟩

theorem answerError (h : Alike T memory memory' s s') (error : Error) :
    Alike T memory memory' (s.answerError error).1 (s'.answerError error).1 ∧
      (s.answerError error).2 = (s'.answerError error).2 := by
  obtain ⟨hpublished, heq⟩ := blind (Blind.publisher fun p inbox => Publisher.takeErrors_withInbox p inbox) (h.dropTaken hT)
  unfold Stage.answerError
  dsimp only at hpublished heq ⊢
  rw [heq]
  exact ⟨hpublished.closeInbox hT, rfl⟩

end Alike

end Stage

end GraphQL
