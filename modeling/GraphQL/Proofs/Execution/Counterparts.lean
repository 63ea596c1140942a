import GraphQL.Proofs.Delivery.Exchange
import GraphQL.Proofs.Execution.Recollection
import GraphQL.Proofs.Execution.Roots

/-!
# What stands for each other in two executions

An execution and a variation of it hand out different numbers, and each remembers what it likes (`Recollections`).  A group
of the one stands for a group of the other if their fields correspond, and targets that stand for each other have the same
records (`FieldGroup.Counterpart`).  This goes on to jobs and tasks, which are the same in everything else
(`Job.Counterpart`, `Task.Counterpart`), and to stages (`Stage.Counterpart`).
-/

namespace GraphQL

open Execution

variable {c : ExecutionContext}

/-- What an execution and a variation of it recall. -/
structure Recollections (c : ExecutionContext) where
  plain : Recollection c
  varied : Recollection c

/-- Both recall the same later; the execution forgot nothing. -/
structure Recollections.Later (w w' : Recollections c) : Prop where
  plain : w.plain.Later True w'.plain
  varied : w.varied.Later False w'.varied

namespace Recollections.Later

variable {w w' w'' : Recollections c}

theorem refl (w : Recollections c) : w.Later w := ⟨.refl _, .refl _⟩

theorem trans (h : w.Later w') (h' : w'.Later w'') : w.Later w'' := ⟨h.plain.trans h'.plain, h.varied.trans h'.varied⟩

end Recollections.Later

/-! ### Groups -/

/-- Targets that stand for each other in two maps: the initial result in both, or fragments with the same record. -/
inductive DeferMap.Binds (m m' : DeferMap) : Target → Target → Prop
  | initial : Binds m m' .initial .initial
  | deferred {u u' record} (h : m.get? u.id = some record) (h' : m'.get? u'.id = some record) :
      Binds m m' (.deferred u) (.deferred u')

/-- No fragment has the number of the initial result. -/
def DeferMap.Positive (m : DeferMap) : Prop := m.get? 0 = none

/-- Each target that was reached stands for one that has the same record. -/
def DeferMap.Covers (m m' : DeferMap) (S : Target → Target → Prop) (reached : List Target) : Prop :=
  ∀ t ∈ reached, ∃ t', S t t' ∧ m.Binds m' t t'

/-- A group stands for a group of the other execution. -/
structure FieldGroup.Counterpart (w : Recollections c) (m m' : DeferMap) (g g' : FieldGroup) : Prop where
  plain : g ∈ w.plain.groups
  varied : g' ∈ w.varied.groups
  positive : m.Positive ∧ m'.Positive
  corresponds : ∃ R, Target.Matching R ∧ g.Corresponds R g' ∧ ∀ {t t'}, R t t' → m.Binds m' t t'

/-- Groups that stand for each other, under the same keys. -/
def GroupedFieldSet.Counterpart (w : Recollections c) (m m' : DeferMap) (fields fields' : GroupedFieldSet) : Prop :=
  List.Forall₂ (fun field field' => field.1 = field'.1 ∧ field.2.Counterpart w m m' field'.2) fields fields'

/-- Sets of fields stand for each other, and a new one has a target that is not the initial result. -/
structure NewFieldSet.Counterpart (w : Recollections c) (m m' : DeferMap) (set set' : NewFieldSet) : Prop where
  targets : List.Forall₂ (m.Binds m') set.targets.targets set'.targets.targets
  fields : GroupedFieldSet.Counterpart w m m' set.fields set'.fields
  initiatesDefer : set.initiatesDefer = set'.initiatesDefer
  placed : set'.Placed

/-- A site stands for one with another group and another map. -/
inductive Site.Counterpart (w : Recollections c) (site : Site) : Site → Prop
  | mk {group deferMap} (h : site.group.Counterpart w site.deferMap deferMap group) :
      Counterpart w site { site with group := group, deferMap := deferMap }

/-- Fields stand for fields of the same object. -/
inductive ObjectFields.Counterpart (w : Recollections c) (o : ObjectFields) : ObjectFields → Prop
  | mk {fields deferMap} (h : o.fields.Counterpart w o.deferMap deferMap fields) :
      Counterpart w o { o with fields := fields, deferMap := deferMap }

/-- Lists are streamed in the same way. -/
inductive StreamUsage.Counterpart (w : Recollections c) (usage : StreamUsage) : StreamUsage → Prop
  | mk {group} (h : usage.group.Counterpart w [] [] group) : Counterpart w usage { usage with group := group }

/-- Children that stand for each other, or have the same outcome. -/
inductive Slot.Counterpart {α β : Type} (R : α → β → Prop) : Slot α → Slot β → Prop
  | running {job job'} (h : R job job') : Counterpart R (.running job) (.running job')
  | finished (outcome : Except Error Json) : Counterpart R (.finished outcome) (.finished outcome)

/-! ### Jobs and tasks -/

/-- A job that does the same, for groups that stand for each other. -/
inductive Job.Counterpart (w : Recollections c) : Job → Job → Prop
  | field {type site site' value value'} (hsite : Site.Counterpart w site site') (h : Job.Counterpart w value value') :
      Job.Counterpart w (.field type site value) (.field type site' value')
  | failed {e} : Job.Counterpart w (.failed e) (.failed e)
  | complete {type site site' value} (hsite : Site.Counterpart w site site') :
      Job.Counterpart w (.complete type site value) (.complete type site' value)
  | await {type site site' timer outcome} (hsite : Site.Counterpart w site site') :
      Job.Counterpart w (.await type site timer outcome) (.await type site' timer outcome)
  | nonNull {info value value'} (h : Job.Counterpart w value value') :
      Job.Counterpart w (.nonNull info value) (.nonNull info value')
  | gather {shape started children children'}
      (h : List.Forall₂ (Slot.Counterpart (Job.Counterpart w)) children children') :
      Job.Counterpart w (.gather shape started children) (.gather shape started children')
  | iterate {type site site' usage usage' source items items'} (hsite : Site.Counterpart w site site')
      (husage : Option.Rel (StreamUsage.Counterpart w) usage usage') (hitems : List.Forall₂ (Job.Counterpart w) items items') :
      Job.Counterpart w (.iterate type site usage source items) (.iterate type site' usage' source items')
  | select {fields fields'} (h : ObjectFields.Counterpart w fields fields') :
      Job.Counterpart w (.select fields) (.select fields')
  | between {fields fields' done remaining remaining'} (hfields : ObjectFields.Counterpart w fields fields')
      (h : remaining.Counterpart w fields.deferMap fields'.deferMap remaining') :
      Job.Counterpart w (.serial fields done none remaining) (.serial fields' done none remaining')
  | serial {fields fields' done key job job' remaining remaining'} (hfields : ObjectFields.Counterpart w fields fields')
      (hjob : Job.Counterpart w job job') (h : remaining.Counterpart w fields.deferMap fields'.deferMap remaining') :
      Job.Counterpart w (.serial fields done (some (key, job)) remaining) (.serial fields' done (some (key, job')) remaining')

/-- A task that does the same, for groups that stand for each other. -/
inductive Task.Counterpart (w : Recollections c) : Task → Task → Prop
  | fieldSet {path record data data'} (h : Job.Counterpart w data data') :
      Counterpart w (.fieldSet path record data) (.fieldSet path record data')
  | item {listPath record value value'} (h : Job.Counterpart w value value') :
      Counterpart w (.item listPath record value) (.item listPath record value')
  | fetch (f : Fetcher) {group} (h : f.group.Counterpart w [] [] group) :
      Counterpart w (.fetch f) (.fetch { f with group := group })

/-- Stages that differ in what is remembered, and in tasks that stand for each other. -/
def Stage.Counterpart (w : Recollections c) (s s' : Stage Task Memory) : Prop :=
  s.Alike (Task.Counterpart w) w.plain.memory w.varied.memory s'

/-! ### Later on -/

section Later

variable {w w' : Recollections c} (hlater : w.Later w') {m m' : DeferMap}
include hlater

theorem FieldGroup.Counterpart.later {g g' : FieldGroup} (h : g.Counterpart w m m' g') : g.Counterpart w' m m' g' :=
  ⟨hlater.plain.subset h.plain, hlater.varied.subset h.varied, h.positive, h.corresponds⟩

theorem GroupedFieldSet.Counterpart.later {fields fields' : GroupedFieldSet} (h : fields.Counterpart w m m' fields') :
    fields.Counterpart w' m m' fields' :=
  h.imp fun _ _ hfield => ⟨hfield.1, hfield.2.later hlater⟩

theorem Site.Counterpart.later {site site' : Site} (h : site.Counterpart w site') : site.Counterpart w' site' := by
  obtain ⟨h⟩ := h
  exact ⟨h.later hlater⟩

theorem ObjectFields.Counterpart.later {o o' : ObjectFields} (h : o.Counterpart w o') : o.Counterpart w' o' := by
  obtain ⟨h⟩ := h
  exact ⟨h.later hlater⟩

theorem StreamUsage.Counterpart.later {usage usage' : StreamUsage} (h : usage.Counterpart w usage') :
    usage.Counterpart w' usage' := by
  obtain ⟨h⟩ := h
  exact ⟨h.later hlater⟩

end Later

namespace Job.Counterpart

variable {w w' : Recollections c}

mutual

theorem later (hlater : w.Later w') : ∀ {j j' : Job}, j.Counterpart w j' → j.Counterpart w' j'
  | .field .., _, h => by
    cases h with
    | field hsite h => exact .field (hsite.later hlater) (later hlater h)
  | .failed _, _, h => by
    cases h with
    | failed => exact .failed
  | .complete .., _, h => by
    cases h with
    | complete hsite => exact .complete (hsite.later hlater)
  | .await .., _, h => by
    cases h with
    | await hsite => exact .await (hsite.later hlater)
  | .nonNull .., _, h => by
    cases h with
    | nonNull h => exact .nonNull (later hlater h)
  | .gather .., _, h => by
    cases h with
    | gather h => exact .gather (laterOfSlots hlater h)
  | .iterate .., _, h => by
    cases h with
    | iterate hsite husage hitems =>
      refine .iterate (hsite.later hlater) ?_ (laterOfJobs hlater hitems)
      cases husage with
      | none => exact .none
      | some h => exact .some (h.later hlater)
  | .select _, _, h => by
    cases h with
    | select h => exact .select (h.later hlater)
  | .serial _ _ none _, _, h => by
    cases h with
    | between hfields h => exact .between (hfields.later hlater) (h.later hlater)
  | .serial _ _ (some (_, job)) _, _, h => by
    cases h with
    | serial hfields hjob h => exact .serial (hfields.later hlater) (later hlater hjob) (h.later hlater)

theorem laterOfSlots (hlater : w.Later w') : ∀ {slots slots' : List (Slot Job)},
    List.Forall₂ (Slot.Counterpart (Job.Counterpart w)) slots slots' →
      List.Forall₂ (Slot.Counterpart (Job.Counterpart w')) slots slots'
  | [], _, h => by
    cases h with
    | nil => exact .nil
  | .running job :: rest, _, h => by
    cases h with
    | cons hslot hrest =>
      cases hslot with
      | running h => exact .cons (.running (later hlater h)) (laterOfSlots hlater hrest)
  | .finished _ :: rest, _, h => by
    cases h with
    | cons hslot hrest =>
      cases hslot with
      | finished => exact .cons (.finished _) (laterOfSlots hlater hrest)

theorem laterOfJobs (hlater : w.Later w') : ∀ {jobs jobs' : List Job}, List.Forall₂ (Job.Counterpart w) jobs jobs' →
    List.Forall₂ (Job.Counterpart w') jobs jobs'
  | [], _, h => by
    cases h with
    | nil => exact .nil
  | job :: rest, _, h => by
    cases h with
    | cons hjob hrest => exact .cons (later hlater hjob) (laterOfJobs hlater hrest)

end

/-! ### What others see -/

mutual

/-- Jobs that stand for each other wait for the same deadlines, and the same streams are open in them. -/
theorem alike : ∀ {j j' : Job}, j.Counterpart w j' → j.deadlines = j'.deadlines ∧ j.openStreams = j'.openStreams
  | .field .., _, h => by
    cases h with
    | field _ h =>
      have hvalue := alike h
      exact hvalue
  | .failed _, _, h => by
    cases h with
    | failed => exact ⟨rfl, rfl⟩
  | .complete .., _, h => by
    cases h with
    | complete => exact ⟨rfl, rfl⟩
  | .await .., _, h => by
    cases h with
    | await => exact ⟨rfl, rfl⟩
  | .nonNull .., _, h => by
    cases h with
    | nonNull h =>
      have hvalue := alike h
      exact hvalue
  | .gather .., _, h => by
    cases h with
    | gather h => exact alikeSlots h
  | .iterate .., _, h => by
    cases h with
    | iterate _ _ hitems => exact ⟨rfl, congrArg (_ ++ ·) (openStreamsOfJobs_eq hitems)⟩
  | .select _, _, h => by
    cases h with
    | select => exact ⟨rfl, rfl⟩
  | .serial _ _ none _, _, h => by
    cases h with
    | between => exact ⟨rfl, rfl⟩
  | .serial _ _ (some (_, job)) _, _, h => by
    cases h with
    | serial _ hjob =>
      have hcurrent := alike hjob
      exact hcurrent

theorem alikeSlots : ∀ {slots slots' : List (Slot Job)}, List.Forall₂ (Slot.Counterpart (Job.Counterpart w)) slots slots' →
    deadlinesOfSlots slots = deadlinesOfSlots slots' ∧ openStreamsOfSlots slots = openStreamsOfSlots slots'
  | [], _, h => by
    cases h with
    | nil => exact ⟨rfl, rfl⟩
  | .running job :: rest, _, h => by
    cases h with
    | cons hslot hrest =>
      cases hslot with
      | running h =>
        obtain ⟨hdeadlines, hopen⟩ := alike h
        obtain ⟨hdeadlines', hopen'⟩ := alikeSlots hrest
        exact ⟨congrArg₂ (· ++ ·) hdeadlines hdeadlines', congrArg₂ (· ++ ·) hopen hopen'⟩
  | .finished _ :: rest, _, h => by
    cases h with
    | cons hslot hrest =>
      cases hslot with
      | finished =>
        have hothers := alikeSlots hrest
        exact hothers

theorem openStreamsOfJobs_eq : ∀ {jobs jobs' : List Job}, List.Forall₂ (Job.Counterpart w) jobs jobs' →
    openStreamsOfJobs jobs = openStreamsOfJobs jobs'
  | [], _, h => by
    cases h with
    | nil => rfl
  | job :: rest, _, h => by
    cases h with
    | cons hjob hrest => exact congrArg₂ (· ++ ·) (alike hjob).2 (openStreamsOfJobs_eq hrest)

end

/-- Children that were not run. -/
theorem gathered {shape : Shape} {started : Bool} {jobs jobs' : List Job} (h : List.Forall₂ (Job.Counterpart w) jobs jobs') :
    Job.Counterpart w (.gather shape started (jobs.map .running)) (.gather shape started (jobs'.map .running)) :=
  .gather (List.rel_map (fun _ _ h => .running h) h)

end Job.Counterpart

namespace Task.Counterpart

variable {w w' : Recollections c} {task task' : Task}

theorem later (hlater : w.Later w') (h : task.Counterpart w task') : task.Counterpart w' task' := by
  cases h with
  | fieldSet h => exact .fieldSet (h.later hlater)
  | item h => exact .item (h.later hlater)
  | fetch f h => exact .fetch f (h.later hlater)

theorem alike (h : task.Counterpart w task') : Work.Alike task task' := by
  cases h with
  | fieldSet h => exact ⟨h.alike.1, rfl, h.alike.2, rfl⟩
  | item h => exact ⟨h.alike.1, rfl, h.alike.2, rfl⟩
  | fetch f h => exact ⟨rfl, rfl, rfl, rfl⟩

end Task.Counterpart

/-! ### What is collected -/

/-- What was collected in both executions, below values whose fields were met in some targets. -/
structure CollectedFields.Counterpart (w : Recollections c) (S : Target → Target → Prop) (reached : List Target)
    (collected collected' : CollectedFields) : Prop where
  matching : Target.Matching S
  corresponds : collected.Corresponds S collected'
  plain : collected.allFields.map Prod.snd ⊆ w.plain.groups
  varied : collected'.allFields.map Prod.snd ⊆ w.varied.groups
  chained : Chained reached collected.newUsages
  fits : ∃ first parent, collected.Fits first reached parent
  placed : ∀ set ∈ collected'.newSets, set.Placed

namespace DeferMap

variable {m m' : DeferMap} {S : Target → Target → Prop} {reached : List Target} {t t' : Target} {u u' : DeferUsage}

theorem Positive.insert (h : m.Positive) {usage : Nat} (husage : usage ≠ 0) (record : RecordId) :
    (m.insert usage record).Positive :=
  get?_insert.trans ((if_neg husage).trans h)

theorem Binds.insert (h : m.Binds m' t t') (hS : Target.Matching S) (ht : S t t') (hu : S (.deferred u) (.deferred u'))
    (record : RecordId) : (m.insert u.id record).Binds (m'.insert u'.id record) t t' := by
  cases h with
  | initial => exact .initial
  | @deferred v v' _ hv hv' =>
    have hiff := hS.id_eq hu ht
    by_cases heq : u.id = v.id
    · exact .deferred (get?_insert.trans (if_pos heq)) (get?_insert.trans (if_pos (hiff.1 heq)))
    · exact .deferred (get?_insert.trans ((if_neg heq).trans hv)) (get?_insert.trans ((if_neg (mt hiff.2 heq)).trans hv'))

theorem Covers.insert (h : m.Covers m' S reached) (hS : Target.Matching S) (hu : S (.deferred u) (.deferred u'))
    (record : RecordId) :
    (m.insert u.id record).Covers (m'.insert u'.id record) S (reached ++ [.deferred u]) := by
  intro t ht
  rcases List.mem_append.1 ht with ht | ht
  · obtain ⟨t', hS', hbinds⟩ := h t ht
    exact ⟨t', hS', hbinds.insert hS hS' hu record⟩
  · rw [List.mem_singleton.1 ht]
    exact ⟨_, hu, .deferred (get?_insert.trans (if_pos rfl)) (get?_insert.trans (if_pos rfl))⟩

/-- Targets that stand for each other have the same record if they were reached. -/
theorem Covers.binds (h : m.Covers m' S reached) (hS : Target.Matching S) (ht : t ∈ reached) (hS' : S t t') :
    m.Binds m' t t' := by
  obtain ⟨t'', ht'', hbinds⟩ := h t ht
  rwa [(hS.eq hS' ht'').1 rfl]

end DeferMap

/-- Sets of targets that stand for each other belong to the same fragments. -/
theorem TargetSet.fragments_eq {m m' : DeferMap} {set set' : TargetSet}
    (h : List.Forall₂ (m.Binds m') set.targets set'.targets) :
    (set.usages.filterMap fun usage => m.get? usage.id) = set'.usages.filterMap fun usage => m'.get? usage.id := by
  unfold usages
  generalize set.targets = ts at h
  generalize set'.targets = ts' at h
  induction h with
  | nil => rfl
  | cons ht _ ih =>
    cases ht with
    | initial => exact ih
    | deferred hu hu' => simp only [List.filterMap_cons, Target.usage?, hu, hu', ih]

theorem FieldGroup.Corresponds.counterpart {w : Recollections c} {m m' : DeferMap} {S : Target → Target → Prop}
    {reached : List Target} {g g' : FieldGroup} (h : g.Corresponds S g') (hS : Target.Matching S)
    (hcovers : m.Covers m' S reached) (hpositive : m.Positive ∧ m'.Positive) (hreached : g.reached ⊆ reached)
    (hg : g ∈ w.plain.groups) (hg' : g' ∈ w.varied.groups) : g.Counterpart w m m' g' := by
  have hgrounded := (w.plain.placed g hg).1.toGrounded
  have hrestrict := h.restrict hgrounded (w.varied.placed g' hg').1.toGrounded
  refine ⟨hg, hg', hpositive, _, hS.mono And.left, hrestrict, fun ht => hcovers.binds hS (hreached ht.2.1) ht.1⟩

namespace CollectedFields.Counterpart

variable {w : Recollections c} {m m' : DeferMap} {S : Target → Target → Prop} {reached : List Target}
  {collected collected' : CollectedFields}

/-- With records for the new uses of `@defer`, fields stand for each other. -/
theorem fields (h : collected.Counterpart w S reached collected')
    (hcovers : m.Covers m' S (reached ++ collected.newUsages.map .deferred)) (hpositive : m.Positive ∧ m'.Positive)
    {fields fields' : GroupedFieldSet} (hfields : fields.Corresponds S fields') (hsub : fields ⊆ collected.allFields)
    (hsub' : fields' ⊆ collected'.allFields) : fields.Counterpart w m m' fields' := by
  obtain ⟨first, parent, hfits⟩ := h.fits
  have hmem := ((List.forall₂_and_left _ _).2 ⟨fun field hfield => hsub hfield, hfields⟩).flip
  have hmem' := ((List.forall₂_and_left _ _).2 ⟨fun field hfield => hsub' hfield, hmem⟩).flip
  refine hmem'.imp fun field field' hboth => ?_
  obtain ⟨hfield', hfield, hkey, hgroup⟩ := hboth
  refine ⟨hkey, ?_⟩
  exact hgroup.counterpart h.matching hcovers hpositive (fun t ht => (hfits.reaches field hfield t ht).mem)
    (h.plain (List.mem_map_of_mem hfield)) (h.varied (List.mem_map_of_mem hfield'))

/-- With records for the new uses of `@defer`, the new sets stand for each other. -/
theorem newSets (h : collected.Counterpart w S reached collected')
    (hcovers : m.Covers m' S (reached ++ collected.newUsages.map .deferred)) (hpositive : m.Positive ∧ m'.Positive) :
    List.Forall₂ (NewFieldSet.Counterpart w m m') collected.newSets collected'.newSets := by
  obtain ⟨first, parent, hfits⟩ := h.fits
  have hmem := ((List.forall₂_and_left _ _).2 ⟨fun set hset => hset, h.corresponds.newSets⟩).flip
  have hmem' := ((List.forall₂_and_left _ _).2 ⟨fun set hset => hset, hmem⟩).flip
  refine hmem'.imp fun set set' hboth => ?_
  obtain ⟨hset', hset, hcorresponds⟩ := hboth
  refine ⟨?_, ?_, hcorresponds.initiatesDefer, h.placed set' hset'⟩
  · have htargets := (List.forall₂_and_left _ _).2 ⟨fun t ht => (hfits.others set hset).2.1 t ht, hcorresponds.targets⟩
    exact htargets.imp fun t t' ht => hcovers.binds h.matching ht.1.mem ht.2
  · refine h.fields hcovers hpositive hcorresponds.fields (fun field hfield => ?_) fun field hfield => ?_
    · exact List.mem_append_right _ (List.mem_flatMap.2 ⟨set, hset, hfield⟩)
    · exact List.mem_append_right _ (List.mem_flatMap.2 ⟨set', hset', hfield⟩)

end CollectedFields.Counterpart

section Collected

variable {w : Recollections c}

/-- Below groups that stand for each other, collections fail alike or find what stands for each other. -/
theorem ExecutionContext.Collects.counterpart {m m' : DeferMap} {g g' : FieldGroup} {typeName : String}
    {out out' : Except CollectionError CollectedFields} (h : c.Collects typeName g out) (h' : c.Collects typeName g' out')
    (hg : g.Counterpart w m m' g')
    (hplain : ∀ collected, out = .ok collected → collected.allFields.map Prod.snd ⊆ w.plain.groups)
    (hvaried : ∀ collected, out' = .ok collected → collected.allFields.map Prod.snd ⊆ w.varied.groups) :
    (∃ e, out = .error e ∧ out' = .error e) ∨ ∃ collected collected' S, out = .ok collected ∧ out' = .ok collected' ∧
      collected.Counterpart w S g.reached collected' ∧ m.Covers m' S g.reached := by
  obtain ⟨collector, hprecedes, rfl⟩ := h
  obtain ⟨collector', hprecedes', rfl⟩ := h'
  obtain ⟨R, hR, hcorresponds, hbinds⟩ := hg.corresponds
  have hplaced' := (w.varied.placed g' hg.varied).1
  have hgives := collector.collectBelow_gives c.collection typeName g
  have hnew := fun collected => @Collector.placed_collectBelow c.collection collector' g' typeName collected hplaced' hprecedes'
  rcases Collector.collectBelow_corresponds hR hcorresponds (w.plain.placed g hg.plain).1.toGrounded hplaced'.toGrounded
      hprecedes hprecedes' typeName with hfail | ⟨collected, collected', S, hout, hout', hS, hle, hfound⟩
  · exact .inl hfail
  · have hfits := hgives.fits collected hout
    refine .inr ⟨collected, collected', S, hout, hout', ⟨hS, hfound, hplain _ hout, hvaried _ hout', ?_, ⟨_, _, hfits⟩,
      (hnew collected' hout').2⟩, fun t ht => ?_⟩
    · exact hfits.usages.chained hprecedes.1 hprecedes.2
    · obtain ⟨t', ht', hR'⟩ := exists_of_forall₂ hcorresponds.reached ht
      exact ⟨t', hle ⟨hR', ht, ht'⟩, hbinds hR'⟩

/-- For an operation, collections fail alike or find what stands for each other. -/
theorem CollectedFields.counterpart_initially {out out' : Except CollectionError CollectedFields}
    {collector collector' : Collector} {objectType : String} {selections : List Selection}
    (hpositive : 0 < collector.nextUsage) (hpositive' : 0 < collector'.nextUsage)
    (hout : (collector.collectFields c.collection objectType selections).1 = out)
    (hout' : (collector'.collectFields c.collection objectType selections).1 = out')
    (hplain : ∀ collected, out = .ok collected → collected.allFields.map Prod.snd ⊆ w.plain.groups)
    (hvaried : ∀ collected, out' = .ok collected → collected.allFields.map Prod.snd ⊆ w.varied.groups) :
    (∃ e, out = .error e ∧ out' = .error e) ∨ ∃ collected collected' S, out = .ok collected ∧ out' = .ok collected' ∧
      collected.Counterpart w S [.initial] collected' ∧ DeferMap.Covers [] [] S [.initial] := by
  subst hout hout'
  have hgives := collector.collectFields_gives c.collection objectType selections
  rcases Collector.collectFields_corresponds (c := c.collection) hpositive hpositive' objectType selections with
    hfail | ⟨collected, collected', S, hout, hout', hS, hle, hfound⟩
  · exact .inl hfail
  · have hfits := hgives.fits collected hout
    refine .inr ⟨collected, collected', S, hout, hout', ⟨hS, hfound, hplain _ hout, hvaried _ hout', ?_, ⟨_, _, hfits⟩,
      (Collector.placed_collectFields hpositive' hout').2⟩, fun t ht => ?_⟩
    · exact hfits.usages.chained hpositive (by simp)
    · rw [List.mem_singleton.1 ht]
      exact ⟨.initial, hle ⟨rfl, rfl⟩, .initial⟩

end Collected

/-- How lists are streamed stands for each other if it corresponds. -/
theorem StreamUsage.Corresponds.counterpart {w : Recollections c} {usage usage' : StreamUsage} (h : usage.Corresponds usage')
    (hplain : usage.group ∈ w.plain.groups) (hvaried : usage'.group ∈ w.varied.groups) : usage.Counterpart w usage' := by
  obtain ⟨count, label, group⟩ := usage
  obtain ⟨count', label', group'⟩ := usage'
  obtain ⟨rfl, rfl, hgroup⟩ := h
  have hgroups : group.Counterpart w [] [] group' := by
    refine ⟨hplain, hvaried, ⟨rfl, rfl⟩, _, .initial, hgroup, fun ht => ?_⟩
    rw [ht.1, ht.2]
    exact .initial
  exact @StreamUsage.Counterpart.mk _ w ⟨count, label, group⟩ group' hgroups

end GraphQL
