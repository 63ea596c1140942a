import GraphQL.Proofs.Meaning.ListDeeds

/-!
# Running jobs works by deeds

Whatever may become of a job that ran, if the errors that were noted are told, might have become of the job before, and
what it leaves to be completed stands where it should.
-/

namespace GraphQL

open Execution Stage

variable {c : ExecutionContext} {l l' : Ledger} {hand : List RecordId} {s s' : ExecStage} {home : RecordId}

/-- What waits stands where it should. -/
def Ran.Meant (c : ExecutionContext) (l : Ledger) (s : ExecStage) (home : RecordId) : Ran → Prop
  | .done _ => True
  | .waiting job => job.Meant c l s home

/-- What waits stands where it should, and nothing may become of it but what may become of the job if what was noted is
told. -/
def Ran.Advances (c : ExecutionContext) (job : Job) (home : RecordId) (hand : List RecordId) (ran : Ran) (l' : Ledger)
    (hand' : List RecordId) (s' : ExecStage) : Prop :=
  hand' = hand ∧ ran.Meant c l' s' home ∧
    ∀ told, s'.publisher.Told home told → ∀ fate, ran.Comes c told fate → job.Comes c told fate

theorem Ran.Advances.done {job : Job} {out : Except Error Json}
    (h : ∀ told, s.publisher.Told home told → job.Comes c told (.out out)) :
    (Ran.done out).Advances c job home hand l hand s :=
  ⟨rfl, trivial, fun told htold _ heq => heq ▸ h told htold⟩

/-- A job that may stand for another one. -/
theorem Ran.Advances.of_within {job job' : Job} {ran : Ran} {hand' : List RecordId}
    (h : ran.Advances c job' home hand l hand' s)
    (hjob : ∀ told, s.publisher.Told home told → job'.Within c told job) : ran.Advances c job home hand l hand' s :=
  ⟨h.1, h.2.1, fun told htold fate hfate => hjob told htold fate (h.2.2 told htold fate hfate)⟩

/-- What was told before is told later. -/
theorem Publisher.Told.before {told : Error → Prop} {id : RecordId} (h : s'.publisher.Told id told) (hl : l.Later s l' s') :
    s.publisher.Told id told :=
  fun e he => h e (hl.noted id he)

/-- The errors that may be noted in the job may be noted at the record. -/
def Job.Bears (c : ExecutionContext) (l : Ledger) (s : ExecStage) (home : RecordId) (job : Job) : Prop :=
  ∀ e, job.Comes c (fun _ => True) (.note e) → l.Allows c s.publisher home e

/-- A job that may run for a record: it stands where it should, and what may be noted in it may be noted at the record. -/
structure Job.Fit (c : ExecutionContext) (l : Ledger) (s : ExecStage) (home : RecordId) (job : Job) : Prop where
  meant : job.Meant c l s home
  bears : job.Bears c l s home

theorem Job.Fit.later {job : Job} (h : job.Fit c l s home) (hl : l.Later s l' s') (hlinked : s.publisher.Linked) :
    job.Fit c l' s' home :=
  ⟨hl.meant hlinked h.meant, fun e he => hl.allows hlinked (h.bears e he)⟩

/-- A job that a job that may run goes on as. -/
theorem Job.Fit.advance {job job' : Job} (h : job.Fit c l s home) (hl : l.Later s l' s') (hlinked : s.publisher.Linked)
    (hmeant : job'.Meant c l' s' home) (hjob : job'.Within c (fun _ => True) job) : job'.Fit c l' s' home :=
  ⟨hmeant, fun e he => hl.allows hlinked (h.bears e (hjob _ he))⟩

/-! ### Children -/

/-- Children that ran: what waits stands where it should, and nothing may become of them but what may become of the
children if what was noted is told; or one of them failed. -/
def Slots.Advance (c : ExecutionContext) (slots : List (Slot Job)) (home : RecordId) (hand : List RecordId)
    (out : Except Error (List (Slot Job))) (l' : Ledger) (hand' : List RecordId) (s' : ExecStage) : Prop :=
  hand' = hand ∧
    match out with
    | .ok slots' => Job.MeantSlots c l' s' home slots' ∧ ∀ told, s'.publisher.Told home told →
      PartsWithin (Job.partsOfSlots c told slots') (Job.partsOfSlots c told slots)
    | .error e => ∀ told, s'.publisher.Told home told → ∃ part ∈ Job.partsOfSlots c told slots, part (.out (.error e))

/-- A child that ran takes the place of the child. -/
theorem PartsWithin.set {told : Error → Prop} {slots : List (Slot Job)} {i : Nat} {job : Job}
    (hjob : slots[i]? = some (.running job)) {slot : Slot Job}
    (h : ∀ fate, Job.part c told slot fate → job.Comes c told fate) :
    PartsWithin (Job.partsOfSlots c told (slots.set i slot)) (Job.partsOfSlots c told slots) := by
  rw [Job.partsOfSlots_eq, Job.partsOfSlots_eq]
  show List.Forall₂ _ _ _
  rw [List.forall₂_map_left_iff, List.forall₂_map_right_iff]
  refine List.forall₂_iff_get.2 ⟨List.length_set, fun j hj hj' fate hfate => ?_⟩
  rw [List.get_eq_getElem, List.getElem_set] at hfate
  split at hfate
  · rename_i heq
    subst heq
    obtain ⟨_, hget⟩ := List.getElem?_eq_some_iff.1 hjob
    rw [List.get_eq_getElem, hget]
    exact h fate hfate
  · exact hfate

/-- The error that counts is that of a child. -/
theorem exists_part_of_firstError? {told : Error → Prop} {slots : List (Slot Job)} {e : Error}
    (h : firstError? slots = some e) : ∃ part ∈ Job.partsOfSlots c told slots, part (.out (.error e)) := by
  induction slots with
  | nil => exact absurd h (by simp [firstError?])
  | cons slot rest ih =>
    cases slot with
    | running job => exact absurd h (by simp [firstError?])
    | finished outcome =>
      cases outcome with
      | ok v =>
        obtain ⟨part, hpart, he⟩ := ih h
        exact ⟨part, List.mem_cons_of_mem _ hpart, he⟩
      | error e' =>
        cases h
        exact ⟨_, List.mem_cons_self, rfl⟩

/-- The values of children that all have one. -/
theorem forall₂_of_value? {told : Error → Prop} {slots : List (Slot Job)} {values : List Json}
    (h : slots.mapM Slot.value? = some values) :
    List.Forall₂ (fun part v => part (.out (.ok v))) (Job.partsOfSlots c told slots) values := by
  induction slots generalizing values with
  | nil =>
    cases h
    exact .nil
  | cons slot rest ih =>
    rw [List.mapM_cons] at h
    obtain ⟨v, hv, h⟩ := Option.bind_eq_some_iff.1 h
    obtain ⟨vs, hvs, h⟩ := Option.bind_eq_some_iff.1 h
    cases h
    cases slot with
    | running job => exact absurd hv (by simp [Slot.value?])
    | finished outcome =>
      cases outcome with
      | error e => exact absurd hv (by simp [Slot.value?])
      | ok w =>
        cases hv
        exact .cons rfl (ih hvs)

section Children

variable {run : Job → ExecM Ran} (hrun : ∀ job l s, Job.Fit c l s home job → s.Manned home hand →
  Does c (run job) l hand s (Ran.Advances c job home hand))

include hrun

theorem does_runFew (slots : List (Slot Job)) (hslots : ∀ job, Slot.running job ∈ slots → job.Fit c l s home)
    (hmanned : s.Manned home hand) : Does c (runFew run slots) l hand s (Slots.Advance c slots home hand) := by
  induction slots generalizing l s with
  | nil => exact Does.pure ⟨rfl, trivial, fun _ _ => .nil⟩
  | cons slot rest ih =>
    -- a child before the others
    have hcons : ∀ {slot'} {out : Except Error (List (Slot Job))} {l' s'}, Slots.Advance c rest home hand out l' hand s' →
        (∀ job, slot' = .running job → job.Meant c l' s' home) →
        (∀ told, s'.publisher.Told home told → ∀ fate, Job.part c told slot' fate → Job.part c told slot fate) →
        Slots.Advance c (slot :: rest) home hand (out.map (slot' :: ·)) l' hand s' := by
      intro slot' out l' s' ⟨_, hout⟩ hmeant hpart
      refine ⟨rfl, ?_⟩
      cases out with
      | error e =>
        intro told htold
        obtain ⟨part, hmem, he⟩ := hout told htold
        refine ⟨part, ?_, he⟩
        rw [Job.partsOfSlots_eq] at hmem ⊢
        exact List.mem_cons_of_mem _ hmem
      | ok rest' =>
        refine ⟨?_, fun told htold => ?_⟩
        · cases slot' with
          | running job => exact ⟨hmeant job rfl, hout.1⟩
          | finished outcome => exact hout.1
        · have hrest := hout.2 told htold
          rw [Job.partsOfSlots_eq, Job.partsOfSlots_eq] at hrest ⊢
          exact .cons (hpart told htold) hrest
    have hslots' : ∀ job, Slot.running job ∈ rest → job.Fit c l s home :=
      fun job hjob => hslots job (List.mem_cons_of_mem _ hjob)
    cases slot with
    | finished outcome =>
      refine Does.bind (ih hslots' hmanned) ?_
      rintro out l₁ hand₁ s₁ - - hout
      obtain rfl : hand₁ = hand := hout.1
      exact Does.pure (hcons hout (fun job heq => absurd heq (by simp)) fun _ _ _ h => h)
    | running job =>
      unfold runFew
      refine Does.clear fun hc => Does.bind (hrun job l s (hslots job List.mem_cons_self) hmanned) ?_
      rintro out l₁ hand s₁ hl₁ hc₁ ⟨rfl, hmeant, hcomes⟩
      have hrest := ih (fun job hjob => (hslots' job hjob).later hl₁ hc.sound.publisher.linked) (hmanned.later hl₁)
      cases out with
      | done outcome =>
        cases outcome with
        | error e =>
          refine Does.steady_bind (steady_noteClosed _) fun _ s₂ hl₂ _ _ => Does.pure ⟨rfl, fun told htold => ?_⟩
          exact ⟨_, List.mem_cons_self, hcomes told (htold.before hl₂) _ rfl⟩
        | ok v =>
          refine Does.bind hrest ?_
          rintro out l₂ hand₂ s₂ hl₂ - hout
          obtain rfl : hand₂ = hand := hout.1
          exact Does.pure (hcons hout (fun job heq => absurd heq (by simp))
            fun told htold => hcomes told (htold.before hl₂))
      | waiting job' =>
        refine Does.bind hrest ?_
        rintro out l₂ hand₂ s₂ hl₂ - hout
        obtain rfl : hand₂ = hand := hout.1
        have hall := @hcons (.running job') _ _ _ hout (fun job heq => by
          cases heq
          exact hl₂.meant hc₁.sound.publisher.linked hmeant) fun told htold => hcomes told (htold.before hl₂)
        cases out with
        | error e =>
          exact Does.steady_bind (steady_noteClosed _) fun _ s₃ hl₃ _ _ =>
            Does.pure ⟨rfl, fun told htold => hall.2 told (htold.before hl₃)⟩
        | ok rest' => exact Does.pure hall

theorem does_runMany (order : List Nat) (slots : List (Slot Job))
    (hslots : ∀ job, Slot.running job ∈ slots → job.Fit c l s home) (hmanned : s.Manned home hand) :
    Does c (runMany run order slots) l hand s (Slots.Advance c slots home hand) := by
  induction order generalizing slots l s with
  | nil => exact Does.pure ⟨rfl, Job.meantSlots_iff.2 fun job hjob => (hslots job hjob).meant, fun _ _ => .refl _⟩
  | cons i order ih =>
    unfold runMany
    split
    · rename_i job hjob
      have hfit := hslots job (List.mem_of_getElem? hjob)
      refine Does.clear fun hc => Does.bind (hrun job l s hfit hmanned) ?_
      rintro out l₁ hand s₁ hl₁ - ⟨rfl, hmeant, hcomes⟩
      -- the other children run with what became of the child
      have hnext : ∀ slot, (∀ job, slot = .running job → job.Fit c l₁ s₁ home) →
          (∀ told, s₁.publisher.Told home told → ∀ fate, Job.part c told slot fate → job.Comes c told fate) →
          Does c (runMany run order (slots.set i slot)) l₁ hand s₁ (Slots.Advance c slots home hand) := by
        intro slot hslot hpart
        refine (ih (slots.set i slot) (fun job hmem => ?_) (hmanned.later hl₁)).later
          fun out l' hand' s' hl' ⟨hhand, hout⟩ => ⟨hhand, ?_⟩
        · rcases List.mem_or_eq_of_mem_set hmem with hmem | heq
          · exact (hslots job hmem).later hl₁ hc.sound.publisher.linked
          · exact hslot job heq.symm
        · have hset := fun told (htold : s'.publisher.Told home told) =>
            PartsWithin.set hjob (hpart told (htold.before hl'))
          cases out with
          | error e => exact fun told htold => (hset told htold).exists_mem (hout told htold)
          | ok slots' => exact ⟨hout.1, fun told htold => (hout.2 told htold).trans (hset told htold)⟩
      cases out with
      | waiting job' =>
        exact hnext _ (fun job heq => by
          cases heq
          exact hfit.advance hl₁ hc.sound.publisher.linked hmeant (hcomes _ fun _ _ => trivial)) hcomes
      | done outcome =>
        dsimp only
        split
        · exact hnext _ (fun job heq => absurd heq (by simp)) hcomes
        · rename_i e herror
          refine Does.steady_bind (steady_noteClosed _) fun _ s₂ hl₂ _ _ => Does.pure ⟨rfl, fun told htold => ?_⟩
          have hpart : ∀ fate, Job.part c told (.finished outcome) fate → job.Comes c told fate :=
            hcomes told (htold.before hl₂)
          exact (PartsWithin.set hjob hpart).exists_mem (exists_part_of_firstError? herror)
    · exact ih slots hslots hmanned

omit hrun in
/-- What is made of children that were run. -/
theorem does_assemble (shape : Shape) (started : Bool) {slots : List (Slot Job)} {out : Except Error (List (Slot Job))}
    (h : Slots.Advance c slots home hand out l hand s) :
    Does c (match out with
      | .error e => return Ran.done (.error e)
      | .ok slots =>
        match slots.mapM Slot.value? with
        | some values => return Ran.done (.ok (shape.assemble values))
        | none => return Ran.waiting (.gather shape true slots)) l hand s
      (Ran.Advances c (.gather shape started slots) home hand) := by
  obtain ⟨-, hout⟩ := h
  cases out with
  | error e =>
    refine Does.pure (.done fun told htold => ?_)
    obtain ⟨part, hpart, he⟩ := hout told htold
    exact .inr ⟨part, hpart, e, he, rfl⟩
  | ok slots' =>
    obtain ⟨hmeant, hwithin⟩ := hout
    dsimp only
    split
    · rename_i values hvalues
      exact Does.pure (.done fun told htold =>
        Gathers.mono (.inl ⟨values, forall₂_of_value? hvalues, rfl⟩) (hwithin told htold))
    · exact Does.pure ⟨rfl, hmeant, fun told htold fate hfate => Gathers.mono hfate (hwithin told htold)⟩

theorem does_runChildren (shape : Shape) (started : Bool) (slots : List (Slot Job))
    (hslots : ∀ job, Slot.running job ∈ slots → job.Fit c l s home) (hmanned : s.Manned home hand) :
    Does c (runChildren run shape started slots) l hand s (Ran.Advances c (.gather shape started slots) home hand) := by
  unfold runChildren
  dsimp only
  split
  · refine Does.bind (does_runFew hrun slots hslots hmanned) ?_
    rintro out l' hand' s' - - hout
    obtain rfl : hand' = hand := hout.1
    exact does_assemble shape started hout
  · refine Does.get_bind (Does.bind (does_runMany hrun _ slots hslots hmanned) ?_)
    rintro out l' hand' s' - - hout
    obtain rfl : hand' = hand := hout.1
    exact does_assemble shape started hout

end Children

/-! ### Items of a stream -/

/-- The children of a list after which a stream goes on, or which are all. -/
theorem Gathers.gather_reverse {told : Error → Prop} {items : List Job} {fate : Fate}
    (h : (Job.gather .list false (items.reverse.map .running)).Comes c told fate) :
    Gathers .list ((Job.partsOfJobs c told items).reverse ++ []) fate := by
  have h : Gathers .list (Job.partsOfSlots c told (items.reverse.map .running)) fate := h
  rw [Job.partsOfSlots_eq, List.map_map] at h
  rw [Job.partsOfJobs_eq, List.append_nil, ← List.map_reverse]
  exact h

/-- An item that is there is taken. -/
theorem Job.comes_iterate_cons {told : Error → Prop} {type : TypeRef} {site : Site} {usage : Option StreamUsage} {before after : ItemStream}
    {items : List Job} {item : FieldValue}
    (htells : before.source = ⟨.ok item :: after.source.outcomes, after.source.ends⟩)
    (hmore : usage.filter (·.initialCount ≤ items.length) = none) {fate : Fate}
    (h : (Job.iterate type site usage after (itemJob type site items.length item :: items)).Comes c told fate) :
    (Job.iterate type site usage before items).Comes c told fate := by
  have hne : usage.map (·.initialCount - items.length) ≠ some 0 := by
    cases usage with
    | none => simp
    | some u =>
      have hlt : ¬ u.initialCount ≤ items.length := by simpa [Option.filter] using hmore
      simp only [Option.map_some, ne_eq, Option.some.injEq]
      omega
  have hcount : (usage.map (·.initialCount - items.length)).map (· - 1) =
      usage.map (·.initialCount - (itemJob type site items.length item :: items).length) := by
    rw [Option.map_map]
    exact congrArg (usage.map ·) (funext fun u => Nat.sub_sub _ _ _)
  have hfirst := ItemSource.first?_cons item after.source.outcomes after.source.ends hne
  rw [← htells, hcount] at hfirst
  rcases h with ⟨e, he, rfl⟩ | ⟨rest, hrest, hfate⟩
  · refine .inl ⟨e, hfirst.trans ?_, rfl⟩
    rw [show ItemSource.mk after.source.outcomes after.source.ends = after.source from rfl, he]
    rfl
  · refine .inr ⟨item :: rest, hfirst.trans ?_, Gathers.mono hfate ?_⟩
    · rw [show ItemSource.mk after.source.outcomes after.source.ends = after.source from rfl, hrest]
      rfl
    · show PartsWithin (((Job.Comes c told _) :: Job.partsOfJobs c told items).reverse ++ _) _
      rw [List.reverse_cons, List.append_assoc]
      refine List.rel_append (PartsWithin.refl _) (.cons (fun fate hfate => ?_) (PartsWithin.refl _))
      exact (Child.comes_job ⟨type, site.place.index items.length, .ok item⟩ site.record site.deferMap told fate).1 hfate

theorem does_takeItems (itemType : TypeRef) {site : Site} (usage : Option StreamUsage) (count : Nat)
    (source : ItemStream) (items : List Job)
    (hjob : (Job.iterate itemType site usage source items).Meant c l s home) :
    Does c (takeItems itemType site usage count source items) l hand s fun out l' hand' s' => hand' = hand ∧
      match out with
      | .error e => ∀ told, (Job.iterate itemType site usage source items).Comes c told (.out (.error e))
      | .ok job => job.Meant c l' s' home ∧ ∀ told, job.Within c told (.iterate itemType site usage source items) := by
  induction count generalizing source items l s with
  | zero => exact Does.pure ⟨rfl, hjob, fun _ _ h => h⟩
  | succ count ih =>
    obtain ⟨hcovers, hitems⟩ := hjob
    have hgathered : ∀ {l' s'}, Job.MeantJobs c l' s' home items →
        source.source.first? (usage.map (·.initialCount - items.length)) = some (.ok []) →
        (Job.gather .list false (items.reverse.map .running)).Meant c l' s' home ∧
          ∀ told, (Job.gather .list false (items.reverse.map .running)).Within c told
            (.iterate itemType site usage source items) := by
      intro l' s' hitems hfirst
      refine ⟨Job.meant_gather _ _ fun job hjob => ?_,
        fun told fate hfate => .inr ⟨[], hfirst, Gathers.gather_reverse hfate⟩⟩
      exact Job.meantJobs_iff.1 hitems job (List.mem_reverse.1 hjob)
    unfold takeItems
    dsimp only
    split
    · rename_i u hfilter
      obtain ⟨rfl, hle⟩ : usage = some u ∧ u.initialCount ≤ items.length := by
        obtain ⟨hu, hle⟩ := Option.filter_eq_some_iff.1 hfilter
        exact ⟨hu, by simpa using hle⟩
      have hindex : items.length = u.initialCount := Nat.le_antisymm (hcovers.within u rfl) hle
      refine Does.clear fun hc => ?_
      rw [hindex] at hcovers ⊢
      refine Does.bind (does_spawnFetcher hcovers) ?_
      rintro - l₁ hand s₁ hl₁ - rfl
      refine Does.pure ⟨rfl, hgathered (hl₁.meantJobs hc.sound.publisher.linked items hitems) ?_⟩
      rw [Option.map_some, hindex, Nat.sub_self]
      exact ItemSource.first?_zero _
    · rename_i hmore
      refine Does.clear fun hc => Does.steady_bind (steady_pollStream source) fun polled s₁ hl₁ _ htells => ?_
      have hcovers₁ := hl₁.coversItems hc.sound.publisher.linked hcovers
      have hitems₁ := hl₁.meantJobs hc.sound.publisher.linked items hitems
      split
      · have hsource : _ = source.source := htells
        refine Does.pure ⟨rfl, ⟨by rw [hsource]; exact hcovers₁, hitems₁⟩, fun told fate hfate => ?_⟩
        unfold Job.Comes at hfate ⊢
        rw [hsource] at hfate
        exact hfate
      · have hsource : source.source = ⟨[], true⟩ := htells
        refine Does.clear fun hc₁ => Does.steady_bind (steady_noteEnded _) fun _ s₂ hl₂ _ _ => Does.pure ⟨rfl, ?_⟩
        exact hgathered (hl₂.meantJobs hc₁.sound.publisher.linked items hitems₁)
          (by rw [hsource]; exact ItemSource.first?_nil _)
      · rename_i e
        have hsource : source.source = ⟨[.error e], true⟩ := htells
        refine Does.steady_bind (steady_noteEnded _) fun _ s₂ _ _ _ => ?_
        refine Does.steady_bind (steady_noteClosed _) fun _ s₃ _ _ _ => Does.pure ⟨rfl, fun told => .inl ⟨e, ?_, rfl⟩⟩
        rw [hsource]
        refine ItemSource.first?_error e ?_
        cases usage with
        | none => simp
        | some u =>
          have hlt : ¬ u.initialCount ≤ items.length := by simpa [Option.filter] using hmore
          simp only [Option.map_some, ne_eq, Option.some.injEq]
          omega
      · rename_i after item
        have hsource : source.source = ⟨.ok item :: after.source.outcomes, after.source.ends⟩ := htells
        obtain ⟨⟨listType, v, whole, hc₁, hdemand, hdrop⟩, hstreams, hknown, hwithin⟩ := hcovers₁
        rw [hsource] at hdrop
        have hdrop' : whole.outcomes.drop items.length = .ok item :: after.source.outcomes :=
          congrArg ItemSource.outcomes hdrop
        have hitem : whole.outcomes[items.length]? = some (.ok item) := by
          rw [← Nat.add_zero items.length, ← List.getElem?_drop, hdrop']
          rfl
        have hlt : ∀ u, usage = some u → items.length < u.initialCount := by
          rintro u rfl
          have hnot : ¬ u.initialCount ≤ items.length := by simpa [Option.filter] using hmore
          exact Nat.not_le.1 hnot
        refine (ih after (itemJob itemType site items.length item :: items)
          ⟨⟨⟨listType, v, whole, hc₁, hdemand, ?_⟩, hstreams, hknown, hlt⟩,
            hc₁.itemJob hdemand hstreams hlt hitem, hitems₁⟩).imp ?_
        · have hrest : whole.outcomes.drop (items.length + 1) = after.source.outcomes := by
            rw [← List.drop_drop, hdrop']
            rfl
          have hends : (whole.drop items.length).ends = after.source.ends := by rw [hdrop]
          show ItemSource.mk (whole.outcomes.drop (items.length + 1)) (whole.drop items.length).ends = after.source
          rw [hrest, hends]
        · rintro out l' hand' s' ⟨hhand, hout⟩
          refine ⟨hhand, ?_⟩
          cases out with
          | error e => exact fun told => Job.comes_iterate_cons hsource hmore (hout told)
          | ok job => exact ⟨hout.1, fun told fate hjob => Job.comes_iterate_cons hsource hmore (hout.2 told fate hjob)⟩

/-! ### Fields that are resolved one after the other -/

/-- Values of fields that are done, with nothing after them. -/
theorem Job.comes_serial_nil (told : Error → Prop) (fields : ObjectFields) (done : List (String × Json)) :
    (Job.serial fields done none []).Comes c told (.out (.ok (.object done))) := by
  refine .inl ⟨done.map Prod.snd, ?_, ?_⟩
  · rw [show c.children { fields.selected with fields := [] } = [] from rfl, List.map_nil, List.append_nil,
      List.forall₂_map_left_iff, List.forall₂_map_right_iff]
    exact List.forall₂_same.2 fun _ _ => rfl
  · show _ = Except.ok (Json.object ((done.map Prod.fst ++ []).zip (done.map Prod.snd)))
    rw [List.append_nil, List.zip_map', List.map_id']

/-- A field that the type does not have. -/
theorem Job.comes_serial_skip {told : Error → Prop} {fields : ObjectFields} {done : List (String × Json)} {key : String} {group : FieldGroup}
    {rest : GroupedFieldSet} (h : c.child? fields.selected key group = none) :
    (Job.serial fields done none rest).Within c told (.serial fields done none ((key, group) :: rest)) := by
  intro fate hfate
  have hchildren := c.children_cons fields.selected key group rest
  rw [h] at hchildren
  unfold Job.Comes at hfate ⊢
  rw [hchildren]
  exact hfate

/-- A field that is resolved next. -/
theorem Job.comes_serial_next {told : Error → Prop} {fields : ObjectFields} {done : List (String × Json)} {key : String} {group : FieldGroup}
    {rest : GroupedFieldSet} {child : Child} (h : c.child? fields.selected key group = some child) :
    (Job.serial fields done (some (key, child.job fields.record fields.deferMap)) rest).Within c told
      (.serial fields done none ((key, group) :: rest)) := by
  intro fate hfate
  have hchildren := c.children_cons fields.selected key group rest
  rw [h] at hchildren
  unfold Job.Comes at hfate ⊢
  rw [hchildren]
  exact Gathers.mono hfate (List.rel_append (PartsWithin.refl _)
    (.cons (fun fate hfate => (Child.comes_job child _ _ told fate).1 hfate) (PartsWithin.refl _)))

/-- A field that ran. -/
theorem Job.comes_serial_run {told : Error → Prop} {fields : ObjectFields} {done : List (String × Json)} {key : String} {job job' : Job}
    {rest : GroupedFieldSet} (h : job'.Within c told job) :
    (Job.serial fields done (some (key, job')) rest).Within c told (.serial fields done (some (key, job)) rest) :=
  fun _ hfate => Gathers.mono hfate (List.rel_append (PartsWithin.refl _) (.cons h (PartsWithin.refl _)))

/-- A field that is done. -/
theorem Job.comes_serial_done {told : Error → Prop} {fields : ObjectFields} {done : List (String × Json)} {key : String} {job : Job}
    {rest : GroupedFieldSet} {v : Json} (h : job.Comes c told (.out (.ok v))) :
    (Job.serial fields (done ++ [(key, v)]) none rest).Within c told (.serial fields done (some (key, job)) rest) := by
  intro fate hfate
  unfold Job.Comes at hfate ⊢
  dsimp only at hfate ⊢
  rw [List.map_append, List.append_assoc, List.map_append, List.append_assoc] at hfate
  refine Gathers.mono hfate (List.rel_append (PartsWithin.refl _) (.cons (fun fate hfate => ?_) (PartsWithin.refl _)))
  rw [show fate = .out (.ok v) from hfate]
  exact h

/-! ### Jobs -/

/-- What becomes of the value of a field becomes of the field, where an error that becomes null is noted. -/
theorem Job.Bears.value {type : TypeRef} {site : Site} {value : Job} (h : (Job.field type site value).Bears c l s home) :
    value.Bears c l s home :=
  fun e he => h e (.inl he)

theorem does_run (c : ExecutionContext) (fuel : Nat) (job : Job) (hjob : job.Fit c l s home)
    (hmanned : s.Manned home hand) : Does c (job.run c fuel) l hand s (Ran.Advances c job home hand) := by
  induction fuel generalizing job l s with
  | zero => exact Does.failure
  | succ fuel ih =>
    have hfit := hjob
    obtain ⟨hjob, hbears⟩ := hjob
    refine Does.clear fun hc => ?_
    -- the job goes on as another one
    have hon : ∀ {job'} {l' s'}, l.Later s l' s' → Job.Meant c l' s' home job' → (∀ told, job'.Within c told job) →
        Does c (job'.run c fuel) l' hand s' (Ran.Advances c job home hand) := by
      intro job' l' s' hl hmeant hwithin
      have hfit' := hfit.advance hl hc.sound.publisher.linked hmeant (hwithin _)
      exact (ih _ hfit' (hmanned.later hl)).imp fun _ _ _ _ h => h.of_within fun told _ => hwithin told
    unfold Job.run
    cases job with
    | failed e => exact Does.pure (.done fun _ _ => rfl)
    | field type site value =>
      obtain ⟨hserves, hvalue⟩ := hjob
      refine Does.bind (ih value ⟨hvalue, hbears.value⟩ hmanned) ?_
      rintro out l₁ hand s₁ hl₁ - ⟨rfl, hmeant, hcomes⟩
      cases out with
      | waiting value' =>
        exact Does.pure ⟨rfl, ⟨hl₁.grows.serves hserves, hmeant⟩,
          fun told htold fate hfate => Child.Fates.mono hfate (hcomes told htold)⟩
      | done outcome =>
        cases outcome with
        | ok v =>
          exact Does.pure (.done fun told htold => ⟨_, hcomes told htold _ rfl, rfl, fun raw hraw => absurd hraw (by simp)⟩)
        | error raw =>
          have hallows : type.isNonNull = false → l₁.Allows c s₁.publisher home (raw.locate site.group site.path) :=
            fun hnull => hl₁.allows hc.sound.publisher.linked
              (hbears _ (.inr ⟨hnull, raw, (hcomes _ (fun _ _ => trivial)) _ rfl, rfl⟩))
          refine Does.bind ((does_absorb type (hl₁.grows.serves hserves) raw hallows).later
            (R := fun out l' hand' s' => l' = l₁ ∧ hand' = hand ∧ out = Child.absorbed type site.place (.error raw) ∧
              (type.isNonNull = false → raw.locate site.group site.path ∈ s'.publisher.noted home) ∧ l₁.Later s₁ l' s')
            fun _ _ _ _ hl h => ⟨h.1, h.2.1, h.2.2.1, h.2.2.2, hl⟩) ?_
          rintro out _ _ s₂ - - ⟨rfl, rfl, rfl, hnoted, hl₂⟩
          refine Does.pure (.done fun told htold => ⟨_, hcomes told (htold.before hl₂) _ rfl, rfl, fun raw' hraw hnull => ?_⟩)
          cases hraw
          exact htold _ (hnoted hnull)
    | complete type site value =>
      refine Does.bind (does_completeValue hjob hmanned) ?_
      rintro progress l₁ hand s₁ hl₁ - ⟨rfl, hmeant, hcomes⟩
      cases progress with
      | done outcome => exact Does.pure (.done fun told _ => hcomes told _ rfl)
      | go job => exact hon hl₁ hmeant hcomes
    | await type site timer outcome =>
      refine Does.steady_bind (steady_pollTimer timer) fun timer? s₁ hl₁ _ _ => ?_
      obtain ⟨hserves, hcovers⟩ := hl₁.meant hc.sound.publisher.linked hjob
      split
      · exact Does.pure ⟨rfl, ⟨hserves, hcovers⟩, fun _ _ fate hfate => hfate⟩
      · exact Does.pure (.done fun _ _ => .outcome rfl)
      · refine Does.clear fun hc₁ => Does.steady_bind (steady_noteOpened _) fun _ s₂ hl₂ _ _ => ?_
        exact hon (hl₁.trans hl₂) (hl₂.meant hc₁.sound.publisher.linked (hcovers _ rfl))
          fun _ fate hfate => .awaited rfl hfate
    | nonNull info value =>
      refine Does.bind (ih value ⟨hjob, hbears⟩ hmanned) ?_
      rintro out l₁ hand s₁ hl₁ - ⟨rfl, hmeant, hcomes⟩
      cases out with
      | waiting value' =>
        exact Does.pure ⟨rfl, hmeant, fun told htold fate hfate => FieldInfo.Fates.mono hfate (hcomes told htold)⟩
      | done outcome =>
        cases outcome with
        | error e => exact Does.pure (.done fun told htold => ⟨_, hcomes told htold _ rfl, rfl⟩)
        | ok v =>
          dsimp only
          split
          · rename_i hnull
            exact Does.pure (.done fun told htold => ⟨_, hcomes told htold _ rfl, (if_pos hnull).symm⟩)
          · rename_i hnull
            exact Does.pure (.done fun told htold => ⟨_, hcomes told htold _ rfl, (if_neg hnull).symm⟩)
    | gather shape started children =>
      refine does_runChildren (fun job l s hjob hmanned => ih job hjob hmanned) shape started children
        (fun job hmem => ⟨Job.meantSlots_iff.1 hjob job hmem, fun e he => hbears e ⟨job.Comes c _, ?_, he⟩⟩) hmanned
      rw [Job.partsOfSlots_eq]
      exact List.mem_map_of_mem hmem
    | iterate type site usage source items =>
      refine Does.bind (does_takeItems type usage _ source items hjob) ?_
      rintro out l₁ hand s₁ hl₁ - ⟨rfl, hout⟩
      split
      · exact Does.pure (.done fun told _ => hout told)
      · exact Does.pure ⟨rfl, hout.1, fun told _ => hout.2 told⟩
      · exact hon hl₁ hout.1 hout.2
    | select fields =>
      refine Does.steady_bind (steady_selectFields c fields) fun job s₁ hl₁ _ hselected => ?_
      subst hselected
      exact hon hl₁ (hl₁.coversFields hc.sound.publisher.linked hjob).job
        fun told fate hfate => (ObjectFields.comes_job fields told fate).1 hfate
    | serial fields done current remaining =>
      cases current with
      | none =>
        have hcovers : l.CoversFields c s home { fields with fields := remaining } := hjob
        cases remaining with
        | nil => exact Does.pure (.done fun told _ => Job.comes_serial_nil told fields done)
        | cons field rest =>
          obtain ⟨key, group⟩ := field
          refine Does.steady_bind (steady_fieldJob c fields key group) fun job? s₁ hl₁ _ hjob? => ?_
          subst hjob?
          have hcovers₁ := hl₁.coversFields hc.sound.publisher.linked hcovers
          have hrest : l.CoversFields c s₁ home { fields with fields := rest } := by
            obtain ⟨⟨all, hall, hsub, hwithin⟩, hserves, hgroups⟩ := hcovers₁
            exact ⟨⟨all, hall, fun f hf => hsub (List.mem_cons_of_mem _ hf), hwithin⟩, hserves,
              fun f hf => hgroups f (List.mem_cons_of_mem _ hf)⟩
          cases hchild : c.child? fields.selected key group with
          | none => exact @hon (.serial fields done none rest) _ _ hl₁ hrest fun _ => Job.comes_serial_skip hchild
          | some child =>
            exact @hon (.serial fields done (some (key, child.job fields.record fields.deferMap)) rest) _ _ hl₁
              ⟨hrest, hcovers₁.child List.mem_cons_self hchild⟩ fun _ => Job.comes_serial_next hchild
      | some current =>
        obtain ⟨key, job⟩ := current
        obtain ⟨hcovers, hmeant⟩ := hjob
        have hjob : job.Fit c l s home :=
          ⟨hmeant, fun e he => hbears e ⟨_, List.mem_append_right _ List.mem_cons_self, he⟩⟩
        refine Does.bind (ih job hjob hmanned) ?_
        rintro out l₁ hand s₁ hl₁ - ⟨rfl, hmeant₁, hcomes⟩
        have hcovers₁ := hl₁.coversFields hc.sound.publisher.linked hcovers
        cases out with
        | waiting job' =>
          exact Does.pure ⟨rfl, ⟨hcovers₁, hmeant₁⟩, fun told htold => Job.comes_serial_run (hcomes told htold)⟩
        | done outcome =>
          cases outcome with
          | error e =>
            exact Does.pure (.done fun told htold =>
              .inr ⟨_, List.mem_append_right _ List.mem_cons_self, e, hcomes told htold _ rfl, rfl⟩)
          | ok v =>
            -- the value is there because what was noted is told from now on
            have hfit₁ : (Job.serial fields (done ++ [(key, v)]) none remaining).Fit c l₁ s₁ home :=
              hfit.advance hl₁ hc.sound.publisher.linked hcovers₁
                (Job.comes_serial_done (hcomes _ (fun _ _ => trivial) _ rfl))
            exact (ih _ hfit₁ (hmanned.later hl₁)).later fun _ _ _ _ hl h => h.of_within fun told htold =>
              Job.comes_serial_done (hcomes told (htold.before hl) _ rfl)

end GraphQL
