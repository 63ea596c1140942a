import GraphQL.Proofs.Execution.Counterparts
import GraphQL.Proofs.Execution.Varied

/-!
# A variation alongside the execution

`Alongside w x x' Q` says that a step of the execution and one of the variation, from stages that stand for each other, come
to no outcome, or to outcomes with the property `Q`, on stages that stand for each other again.  The rules below follow the
way in which steps are put together, and most of what an execution does on its stage is the same in both.
-/

namespace GraphQL

open Execution

variable {c : ExecutionContext} {w : Recollections c} {α β γ δ : Type}

/-- Later, both executions remember what they recall then. -/
theorem Stage.Counterpart.remember {s s' : Stage Task Memory} (hs : Stage.Counterpart w s s') {w' : Recollections c}
    (hlater : w.Later w') :
    Stage.Counterpart w' { s with memory := w'.plain.memory } { s' with memory := w'.varied.memory } :=
  (hs.mono fun ht => ht.later hlater).withMemory _ _

/-- The same error, or values that stand for each other. -/
inductive Outcome.Counterpart (R : α → β → Prop) : Except Error α → Except Error β → Prop
  | error (e : Error) : Counterpart R (.error e) (.error e)
  | ok {a b} (h : R a b) : Counterpart R (.ok a) (.ok b)

/-- Two steps come to no outcome, or lead to stages that stand for each other, with outcomes that have a property. -/
def AlongsideFrom (w : Recollections c) (s s' : Stage Task Memory) (x : ExecM α) (x' : ExecM β)
    (Q : Recollections c → α → β → Prop) : Prop :=
  Option.Rel (fun o o' => ∃ w', w.Later w' ∧ Stage.Counterpart w' o.2 o'.2 ∧ Q w' o.1 o'.1) (x.run s) (x'.run s')

/-- From stages that stand for each other, two steps come to no outcome, or lead to such stages, with outcomes that have a
property. -/
def Alongside (w : Recollections c) (x : ExecM α) (x' : ExecM β) (Q : Recollections c → α → β → Prop) : Prop :=
  ∀ s s', Stage.Counterpart w s s' → AlongsideFrom w s s' x x' Q

namespace AlongsideFrom

variable {s s' : Stage Task Memory} {x : ExecM α} {x' : ExecM β} {Q Q' : Recollections c → α → β → Prop}

theorem imp (h : AlongsideFrom w s s' x x' Q) (himp : ∀ w' a a', w.Later w' → Q w' a a' → Q' w' a a') :
    AlongsideFrom w s s' x x' Q' := by
  unfold AlongsideFrom at h ⊢
  generalize x.run s = o at h
  generalize x'.run s' = o' at h
  cases h with
  | none => exact .none
  | some h =>
    obtain ⟨w', hlater, hs', hq⟩ := h
    exact .some ⟨w', hlater, hs', himp w' _ _ hlater hq⟩

/-- First one step, then another one. -/
theorem bind {k : α → ExecM γ} {k' : β → ExecM δ} {R : Recollections c → γ → δ → Prop} (h : AlongsideFrom w s s' x x' Q)
    (hk : ∀ w' a a', w.Later w' → Q w' a a' → Alongside w' (k a) (k' a') R) :
    AlongsideFrom w s s' (x >>= k) (x' >>= k') R := by
  unfold AlongsideFrom at h ⊢
  rw [StateT.run_bind, StateT.run_bind]
  generalize x.run s = o at h
  generalize x'.run s' = o' at h
  cases h with
  | none => exact .none
  | @some o o' h =>
    obtain ⟨w', hlater, hs', hq⟩ := h
    have hrest := hk w' _ _ hlater hq _ _ hs'
    unfold AlongsideFrom at hrest
    show Option.Rel _ ((k o.1).run o.2) ((k' o'.1).run o'.2)
    generalize (k o.1).run o.2 = out at hrest
    generalize (k' o'.1).run o'.2 = out' at hrest
    cases hrest with
    | none => exact .none
    | some h =>
      obtain ⟨w'', hlater', hs'', hr⟩ := h
      exact .some ⟨w'', hlater.trans hlater', hs'', hr⟩

theorem get {k : Stage Task Memory → ExecM γ} {k' : Stage Task Memory → ExecM δ} {R : Recollections c → γ → δ → Prop}
    (hk : AlongsideFrom w s s' (k s) (k' s') R) : AlongsideFrom w s s' (MonadState.get >>= k) (MonadState.get >>= k') R :=
  hk

theorem set {k : PUnit → ExecM γ} {k' : PUnit → ExecM δ} {R : Recollections c → γ → δ → Prop} {t t' : Stage Task Memory}
    (hk : AlongsideFrom w t t' (k ⟨⟩) (k' ⟨⟩) R) :
    AlongsideFrom w s s' (MonadStateOf.set t >>= k) (MonadStateOf.set t' >>= k') R :=
  hk

end AlongsideFrom

namespace Alongside

variable {x : ExecM α} {x' : ExecM β} {Q Q' : Recollections c → α → β → Prop}

theorem imp (h : Alongside w x x' Q) (himp : ∀ w' a a', w.Later w' → Q w' a a' → Q' w' a a') : Alongside w x x' Q' :=
  fun s s' hs => (h s s' hs).imp himp

theorem pure {a : α} {a' : β} (h : Q w a a') : Alongside w (Pure.pure a) (Pure.pure a') Q :=
  fun _ _ hs => .some ⟨w, .refl w, hs, h⟩

theorem failure : Alongside w (failure : ExecM α) (failure : ExecM β) Q := fun _ _ _ => .none

/-- First one step, then another one. -/
theorem bind {k : α → ExecM γ} {k' : β → ExecM δ} {R : Recollections c → γ → δ → Prop} (h : Alongside w x x' Q)
    (hk : ∀ w' a a', w.Later w' → Q w' a a' → Alongside w' (k a) (k' a') R) : Alongside w (x >>= k) (x' >>= k') R :=
  fun s s' hs => (h s s' hs).bind hk

/-- First a step after which the world is the same, as is the outcome. -/
theorem same {x x' : ExecM α} {k : α → ExecM γ} {k' : α → ExecM δ} {R : Recollections c → γ → δ → Prop}
    (h : Alongside w x x' fun w' a a' => w' = w ∧ a = a') (hk : ∀ a, Alongside w (k a) (k' a) R) :
    Alongside w (x >>= k) (x' >>= k') R := by
  refine h.bind ?_
  rintro w' a a' - ⟨rfl, rfl⟩
  exact hk a

theorem get {k : Stage Task Memory → ExecM γ} {k' : Stage Task Memory → ExecM δ} {R : Recollections c → γ → δ → Prop}
    (hk : ∀ s s', Stage.Counterpart w s s' → Alongside w (k s) (k' s') R) :
    Alongside w (MonadState.get >>= k) (MonadState.get >>= k') R :=
  fun s s' hs => .get (hk s s' hs s s' hs)

theorem set {t t' : Stage Task Memory} {w' : Recollections c} (hlater : w.Later w') (h : Stage.Counterpart w' t t') :
    Alongside w (MonadStateOf.set t) (MonadStateOf.set t') fun w'' _ _ => w'' = w' :=
  fun _ _ _ => .some ⟨w', hlater, h, rfl⟩

theorem modifyGet {f : Stage Task Memory → α × Stage Task Memory} {f' : Stage Task Memory → β × Stage Task Memory}
    (hf : ∀ s s', Stage.Counterpart w s s' → Stage.Counterpart w (f s).2 (f' s').2 ∧ Q w (f s).1 (f' s').1) :
    Alongside w (MonadState.modifyGet f) (MonadState.modifyGet f') Q :=
  fun s s' hs => .some ⟨w, .refl w, hf s s' hs⟩

theorem modify {f f' : Stage Task Memory → Stage Task Memory} {Q : Recollections c → PUnit → PUnit → Prop}
    (hf : ∀ s s', Stage.Counterpart w s s' → Stage.Counterpart w (f s) (f' s')) (h : Q w ⟨⟩ ⟨⟩) :
    Alongside w (modify f) (modify f') Q :=
  modifyGet fun s s' hs => ⟨hf s s' hs, h⟩

theorem ite {b b' : Prop} [Decidable b] [Decidable b'] {y : ExecM α} {y' : ExecM β} (hb : b ↔ b')
    (h : b → Alongside w x x' Q) (h' : ¬ b → Alongside w y y' Q) :
    Alongside w (if b then x else y) (if b' then x' else y') Q := by
  by_cases hholds : b
  · rw [if_pos hholds, if_pos (hb.1 hholds)]
    exact h hholds
  · rw [if_neg hholds, if_neg (mt hb.2 hholds)]
    exact h' hholds

end Alongside

/-! ### The stage -/

/-- What has nothing to do with the work and the memory is the same in both. -/
theorem alongside_blind {f : Stage Task Memory → Stage Task Memory × α} (hf : Stage.Blind f) :
    Alongside w (modifyGet fun s => (f s).swap) (modifyGet fun s => (f s).swap) fun w' a a' => w' = w ∧ a = a' := by
  refine .modifyGet fun s s' hs => ?_
  obtain ⟨hs', heq⟩ := hs.blind hf
  exact ⟨hs', rfl, heq⟩

theorem alongside_change {f : Stage Task Memory → Stage Task Memory}
    (hf : ∀ s inbox work memory, f (s.dressed inbox work memory) = (f s).dressed inbox work memory) :
    Alongside w (modify f) (modify f) fun w' a a' => w' = w ∧ a = a' :=
  .modify (fun _ _ hs => hs.change hf) ⟨rfl, rfl⟩

theorem alongside_publish {f : Publisher Task → Publisher Task × α}
    (hf : ∀ p inbox, f (p.withInbox inbox) = ((f p).1.withInbox inbox, (f p).2)) :
    Alongside w (publish f) (publish f) fun w' a a' => w' = w ∧ a = a' :=
  alongside_blind (Stage.Blind.publisher hf)

theorem alongside_publishUnit {f : Publisher Task → Publisher Task}
    (hf : ∀ p inbox, f (p.withInbox inbox) = (f p).withInbox inbox) :
    Alongside w (publishUnit f) (publishUnit f) fun w' a a' => w' = w ∧ a = a' :=
  alongside_publish fun p inbox => congrArg (·, ()) (hf p inbox)

theorem alongside_publishAndClose {f : Publisher Task → Publisher Task × List StreamId}
    (hf : ∀ p inbox, f (p.withInbox inbox) = ((f p).1.withInbox inbox, (f p).2)) :
    Alongside w (publishAndClose f) (publishAndClose f) fun w' a a' => w' = w ∧ a = a' :=
  .modify (fun _ _ hs => hs.publishAndClose Task.Counterpart.alike hf) ⟨rfl, rfl⟩

theorem alongside_spawn {task task' : Task} (h : task.Counterpart w task') :
    Alongside w (spawn task) (spawn task') fun w' a a' => w' = w ∧ a = a' :=
  .modify (fun _ _ hs => hs.spawn Task.Counterpart.alike h) ⟨rfl, rfl⟩

theorem alongside_noteClosed (names : List String) :
    Alongside w (noteClosed names) (noteClosed names) fun w' a a' => w' = w ∧ a = a' :=
  alongside_change fun s inbox work memory => Stage.noteClosed_dressed s inbox work memory names

theorem alongside_noteOpened (names : List String) :
    Alongside w (noteOpened names) (noteOpened names) fun w' a a' => w' = w ∧ a = a' :=
  alongside_change fun s inbox work memory => Stage.noteOpened_dressed s inbox work memory names

theorem alongside_noteEnded (names : List String) :
    Alongside w (noteEnded names) (noteEnded names) fun w' a a' => w' = w ∧ a = a' :=
  alongside_change fun s inbox work memory => Stage.noteEnded_dressed s inbox work memory names

theorem alongside_pollTimer (t : Timer) : Alongside w (pollTimer t) (pollTimer t) fun w' a a' => w' = w ∧ a = a' :=
  alongside_blind fun s inbox work memory => Stage.pollTimer_dressed s inbox work memory t

theorem alongside_pollStream (source : ItemStream) :
    Alongside w (pollStream source) (pollStream source) fun w' a a' => w' = w ∧ a = a' := by
  have hpoll : Stage.Blind fun s : Stage Task Memory =>
      (((source.poll Resolved.isError s).1.noteOpened (source.poll Resolved.isError s).2.2.openStreams),
        (source.poll Resolved.isError s).2) := by
    intro s inbox work memory
    dsimp only
    rw [Stage.poll_dressed, Stage.noteOpened_dressed]
  exact alongside_blind hpoll

/-! ### Variations -/

namespace Variation

variable (v : Variation)

/-- The variation may forget first what it remembers. -/
theorem alongside_forget {x : ExecM α} {x' : ExecM β} {Q : Recollections c → α → β → Prop}
    (h : ∀ w', w.Later w' → Alongside w' x x' Q) : Alongside w x (do v.forget; x') Q := by
  have hforget : Alongside w (Pure.pure ()) v.forget fun _ _ _ => True := by
    unfold forget
    split
    · intro s s' hs
      have hlater : w.Later ⟨w.plain, w.varied.forget⟩ := ⟨.refl _, w.varied.later_forget⟩
      have hforgets := hs.remember hlater
      have hplain : { s with memory := w.plain.memory } = s := by rw [← hs.memory_eq.1]
      have hvaried : w.varied.forget.memory = s'.memory.forget := congrArg Memory.forget hs.memory_eq.2.symm
      rw [hplain, hvaried] at hforgets
      exact .some ⟨_, hlater, hforgets, trivial⟩
    · exact .pure trivial
  rw [← pure_bind () fun _ => x]
  exact hforget.bind fun w' _ _ hlater _ => h w' hlater

/-- The variation may compare first what it remembers. -/
theorem alongside_compare {x : ExecM α} {x' : ExecM β} {Q : Recollections c → α → β → Prop} {g : FieldGroup}
    (hg : g ∈ w.varied.groups) (h : Alongside w x x' Q) : Alongside w x (do v.compare c g; x') Q := by
  intro s s' hs
  have hsuits : s'.memory.Suits c g := hs.memory_eq.2 ▸ w.varied.suits hg
  have hcompare : (v.compare c g).run s' = some ((), s') :=
    congrArg (StateT.run · s') (if_neg fun hnot : v.careful ∧ ¬ s'.memory.Suits c g => hnot.2 hsuits)
  have hrun : (do v.compare c g; x').run s' = x'.run s' := by
    rw [StateT.run_bind, hcompare]
    rfl
  unfold AlongsideFrom
  rw [hrun]
  exact h s s' hs

theorem insist_eq {holds : Bool} (h : holds = true) : v.insist holds = Pure.pure () := by
  unfold insist
  rw [h, Bool.not_true, Bool.and_false]
  rfl

end Variation

end GraphQL
