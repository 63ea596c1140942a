import GraphQL.Proofs.Meaning.Does

/-!
# Completing objects works by deeds

The fragments and sets of fields that are reported for an object stand near the record that the object is completed for,
and the tasks that are spawned for the sets resolve fields of the object.
-/

namespace GraphQL

open Execution Stage

variable {c : ExecutionContext} {l l' : Ledger} {hand : List RecordId} {s s' : ExecStage} {home : RecordId}

/-- What goes on stands where it should. -/
def Progress.Meant (c : ExecutionContext) (l : Ledger) (s : ExecStage) (home : RecordId) : Progress → Prop
  | .done _ => True
  | .go job => job.Meant c l s home

/-- The record for which values are completed is in hand, or nothing is pending yet. -/
def Stage.Manned (s : ExecStage) (home : RecordId) (hand : List RecordId) : Prop :=
  home ∈ hand ∨ s.publisher.pending = []

theorem Stage.Manned.later (h : s.Manned home hand) (hl : l.Later s l' s') : s'.Manned home hand :=
  h.imp_right fun hp => hl.pending.trans hp

theorem Stage.Manned.mono {hand' : List RecordId} (h : s.Manned home hand) (hsub : hand ⊆ hand') : s.Manned home hand' :=
  h.imp_left fun hmem => hsub hmem

/-! ### Errors that are absorbed -/

theorem memory_closeStreams (s : ExecStage) (ids : List StreamId) : (s.closeStreams ids).memory = s.memory := by
  refine List.foldlRecOn (motive := fun t : ExecStage => t.memory = s.memory) ids _ rfl fun t ht id _ => ?_
  show (t.fireAny _).memory = _
  refine Eq.trans ?_ ht
  unfold fireAny
  split
  · unfold fire
    split <;> rfl
  · rfl

/-- Streams that are closed leave the memory, and no tasks are new. -/
theorem publishAndClose_keeps {f : Publisher Task → Publisher Task × List StreamId}
    (hinbox : (f s.publisher).1.inbox = s.publisher.inbox) :
    (s.publishAndClose f).memory = s.memory ∧ (∀ task ∈ (s.publishAndClose f).tasks, task ∈ s.tasks) ∧
      (s.publishAndClose f).publisher.streams = (f s.publisher).1.streams := by
  obtain ⟨htasks, hsame, -⟩ := closeStreams_eq (s.withPublisher (f s.publisher).1) (f s.publisher).2
  refine ⟨memory_closeStreams _ _, fun task htask => ?_, hsame.streams⟩
  have hmem : task ∈ ((s.withPublisher (f s.publisher).1).closeStreams (f s.publisher).2).tasks := htask
  rw [htasks] at hmem
  have hold : task ∈ s.work.ready ++ s.work.waiting ++ (f s.publisher).1.inbox := List.mem_of_mem_filter hmem
  rw [hinbox] at hold
  exact hold

theorem inbox_filter (p : Publisher Task) (path : Path) (id : RecordId) : (p.filter path id).1.inbox = p.inbox :=
  List.foldlRecOn (motive := fun q : Publisher Task => q.inbox = p.inbox) _ _ rfl fun _ hq _ _ => hq

theorem does_filter (path : Path) (id : RecordId) {Q : Unit → Ledger → List RecordId → ExecStage → Prop}
    (h : Q () l hand (s.publishAndClose fun p => p.filter path id)) :
    Does c (Execution.publishAndClose fun p => p.filter path id) l hand s Q := by
  obtain ⟨hmemory, htasks, -⟩ := publishAndClose_keeps (s := s) (f := fun p => p.filter path id) (inbox_filter _ _ _)
  have hleaves := Publisher.Leaves.filter s path id
  exact Does.modify (.aside rfl rfl (.filter path id) hleaves) hmemory htasks (congrArg Array.size hleaves.streams) h

/-- An error that becomes null is noted at the record. -/
theorem does_absorb (type : TypeRef) {site : Site} (hsite : s.publisher.Serves home site.record site.deferMap)
    (raw : Error) (hallows : type.isNonNull = false → l.Allows c s.publisher home (raw.locate site.group site.path)) :
    Does c (absorb type site raw) l hand s fun out l' hand' s' =>
      l' = l ∧ hand' = hand ∧ out = Child.absorbed type site.place (.error raw) ∧
        (type.isNonNull = false → raw.locate site.group site.path ∈ s'.publisher.noted home) := by
  unfold absorb Child.absorbed
  dsimp only
  split
  · rename_i hnonNull
    exact Does.pure ⟨rfl, rfl, rfl, fun hnull => absurd (hnonNull.symm.trans hnull) (by simp)⟩
  · rename_i hnull
    have hhome : s.publisher.IsHome site.record := by
      rw [hsite.record]
      exact hsite.home
    have hallows : l.Allows c s.publisher site.record (raw.locate site.group site.path) := by
      rw [hsite.record]
      exact hallows (by simpa using hnull)
    refine Does.bind (Does.publish_same (f := fun p => (p.addError site.record (raw.locate site.group site.path), ()))
      (Q := fun _ l' hand' s' => l' = l ∧ hand' = hand ∧ raw.locate site.group site.path ∈ s'.publisher.noted home)
      (.error _ hhome hallows) rfl rfl ⟨rfl, rfl, ?_⟩) ?_
    · show _ ∈ (s.publisher.addError site.record (raw.locate site.group site.path)).noted home
      rw [Publisher.noted_addError hhome, if_pos hsite.record.symm]
      exact List.mem_append_right _ (List.mem_singleton_self _)
    · rintro - _ _ s' - - ⟨rfl, rfl, hnoted⟩
      refine Does.bind ((does_filter site.path site.record (Q := fun _ l' hand' _ => l' = _ ∧ hand' = _)
        ⟨rfl, rfl⟩).later (R := fun _ l' hand' s'' => l' = _ ∧ hand' = _ ∧ s'.publisher.noted home ⊆ s''.publisher.noted home)
        fun _ _ _ _ hl h => ⟨h.1, h.2, hl.noted home⟩) ?_
      rintro - _ _ s'' - - ⟨rfl, rfl, hkept⟩
      exact Does.pure ⟨rfl, rfl, rfl, fun _ => hkept hnoted⟩

/-! ### Fragments and sets of fields -/

theorem does_addFragments (path : Path) (usages : List DeferUsage) {deferMap : DeferMap} {reached : List Target}
    (hhome : s.publisher.IsHome home) (hmap : ∀ e ∈ deferMap, s.publisher.IsFragment e.2)
    (hroots : s.publisher.Roots home reached deferMap) (hchained : Chained reached usages) :
    Does c (addFragments path home usages deferMap) l hand s fun map l' hand' s' => l' = l ∧ hand' = hand ∧
      (∀ e ∈ map, s'.publisher.IsFragment e.2) ∧
      s'.publisher.Roots home (reached ++ usages.map .deferred) map := by
  induction usages generalizing deferMap reached s with
  | nil => exact Does.pure ⟨rfl, rfl, hmap, by rw [List.map_nil, List.append_nil]; exact hroots⟩
  | cons usage rest ih =>
    obtain ⟨haround, hne, hfresh, hchained⟩ := hchained
    unfold addFragments
    rw [List.foldlM_cons]
    have hparent : ((usage.ancestors.head?.bind deferMap.get?).getD home).index < s.publisher.records.size := by
      cases hget : usage.ancestors.head?.bind deferMap.get? with
      | none => exact hhome.lt_size
      | some parent =>
        obtain ⟨a, -, ha⟩ := Option.bind_eq_some_iff.1 hget
        obtain ⟨e, he, rfl⟩ := Option.map_eq_some_iff.1 ha
        exact (hmap e (List.mem_of_find?_eq_some he)).lt_size
    refine Does.clear fun hc => ?_
    have hadds := Publisher.Adds.addFragment hc.sound.publisher.linked path usage.label hparent
    have hleaves := Publisher.Leaves.addFragment s.publisher path usage.label
      ((usage.ancestors.head?.bind deferMap.get?).getD home)
    refine Does.bind (Q := fun map l' hand' s' => l' = l ∧ hand' = hand ∧ (∀ e ∈ map, s'.publisher.IsFragment e.2) ∧
      s'.publisher.Roots home (reached ++ [Target.deferred usage]) map) ?_ ?_
    · refine Does.bind (Q := fun id l' hand' s' => l' = l ∧ hand' = hand ∧ s'.publisher.IsFragment id ∧
          s'.publisher.Roots home (reached ++ [Target.deferred usage]) (deferMap.insert usage.id id))
        (Does.publish_same (.aside rfl rfl (.fragment path usage.label hparent) hleaves) hadds.inbox
          (congrArg Array.size hleaves.streams) ⟨rfl, rfl, ⟨_, hadds.new⟩,
            hroots.addFragment hc.sound.publisher hhome.lt_size path haround hne hfresh⟩) ?_
      rintro id _ _ s' hl - ⟨rfl, rfl, hid, hroots'⟩
      refine Does.pure ⟨rfl, rfl, fun e he => ?_, hroots'⟩
      rcases List.mem_cons.1 he with rfl | he
      · exact hid
      · exact hl.grows.isFragment (hmap e he)
    · rintro map _ _ s' hl - ⟨rfl, rfl, hmap', hroots'⟩
      refine (ih (hl.grows.isHome hhome) hmap' hroots' hchained).imp fun map' l' hand' s'' ⟨hl', hhand, hall, hr⟩ =>
        ⟨hl', hhand, hall, ?_⟩
      rw [List.append_assoc] at hr
      exact hr

/-- A set of fields that was reported: its record stands at the path, and its groups near the record. -/
structure Publisher.Registered (p : Publisher Task) (path : Path) (deferMap : DeferMap) (e : NewFieldSet × RecordId) :
    Prop where
  record : ∃ r, p.record? e.2 = some (.fieldSet r) ∧ r.path = path
  rooted : ∀ field ∈ e.1.fields, p.Rooted e.2 field.2 deferMap

theorem Publisher.Registered.isFieldSet {p : Publisher Task} {path : Path} {deferMap : DeferMap}
    {e : NewFieldSet × RecordId} (h : p.Registered path deferMap e) : p.IsFieldSet e.2 := by
  obtain ⟨r, hr, -⟩ := h.record
  exact ⟨r, hr⟩

theorem Publisher.Registered.seat {p : Publisher Task} {path : Path} {deferMap : DeferMap}
    {e : NewFieldSet × RecordId} (h : p.Registered path deferMap e) : p.seat e.2 = path := by
  obtain ⟨r, hr, hpath⟩ := h.record
  exact (Publisher.seat_fieldSet hr).trans hpath

theorem Ledger.Later.reported (h : l.Later s l' s') (hl : s.publisher.Linked) {path : Path} {deferMap : DeferMap}
    {e : NewFieldSet × RecordId} (he : s.publisher.Registered path deferMap e) : s'.publisher.Registered path deferMap e := by
  obtain ⟨r, hr, hpath⟩ := he.record
  obtain ⟨r', hr', hg⟩ := h.grows.records e.2 _ hr
  cases hg with
  | fieldSet hp =>
    exact ⟨⟨_, hr', hp.trans hpath⟩, fun field hfield => h.rooted hl (he.rooted field hfield) he.isFieldSet.isHome⟩

theorem does_addFieldSets {first : Nat} {reached : List Target} {parent : TargetSet} {collected : CollectedFields}
    (hfits : collected.Fits first reached parent) (o : Selected) {deferMap : DeferMap} (sets : List NewFieldSet)
    (hsets : sets ⊆ collected.newSets) (hhome : s.publisher.IsHome home) (hmanned : s.Manned home hand)
    (hparent : ¬ s.publisher.IsFieldSet home → parent = .initial)
    (hmap : ∀ e ∈ deferMap, s.publisher.IsFragment e.2)
    (hroots : s.publisher.Roots home (reached ++ collected.newUsages.map .deferred) deferMap)
    (hwithin : l.Encloses c s.publisher home o.path (c.asked o)) :
    Does c (addFieldSets o.path deferMap sets) l hand s fun out l' hand' s' =>
      hand'.Perm (out.map Prod.snd ++ hand) ∧ out.map Prod.fst = sets ∧
      ∀ e ∈ out, s'.publisher.Registered o.path deferMap e ∧ l'.sets e.2 = { o with fields := e.1.fields } := by
  induction sets generalizing l hand s with
  | nil => exact Does.pure ⟨List.Perm.refl _, rfl, by simp⟩
  | cons set rest ih =>
    unfold addFieldSets
    rw [List.mapM_cons]
    have hset := hsets List.mem_cons_self
    obtain ⟨hne, htargets, hfields⟩ := hfits.others set hset
    have hfragments : ∀ f ∈ Publisher.fragmentsIn deferMap set.targets, s.publisher.IsFragment f := by
      intro f hf
      obtain ⟨usage, -, hget⟩ := List.mem_filterMap.1 hf
      obtain ⟨e, he, rfl⟩ := Option.map_eq_some_iff.1 hget
      exact hmap e (List.mem_of_find?_eq_some he)
    -- a fragment of the set stands near the record, or comes after other fragments
    have hnear : ∀ f ∈ Publisher.fragmentsIn deferMap set.targets,
        s.publisher.Near home f ∨ s.publisher.AfterFragments f := by
      intro f hf
      obtain ⟨u, hu, hget⟩ := Publisher.exists_of_mem_fragmentsIn hf
      obtain ⟨-, -, fragment, hget', -, hnear, hafter⟩ := hroots.usages u (htargets _ hu).mem
      rw [hget] at hget'
      cases hget'
      by_cases heq : u.ancestors = [0]
      · exact .inl (hnear heq)
      · exact .inr (hafter heq)
    refine Does.clear fun hc => ?_
    have hadds := Publisher.Adds.addFieldSet o.path hfragments
    have hstreams : (s.publisher.addFieldSet o.path (Publisher.fragmentsIn deferMap set.targets)).1.streams =
        s.publisher.streams :=
      List.foldlRecOn (motive := fun q : Publisher Task => q.streams = s.publisher.streams) _ _ rfl fun _ hq _ _ => hq
    refine Does.bind (Q := fun e l' hand' s' => hand' = e.2 :: hand ∧ e.1 = set ∧
      s'.publisher.Registered o.path deferMap e ∧ l'.sets e.2 = { o with fields := e.1.fields }) ?_ ?_
    · refine Does.bind (Q := fun id l' hand' s' => hand' = id :: hand ∧
          s'.publisher.Registered o.path deferMap (set, id) ∧ l'.sets id = { o with fields := set.fields })
        (Does.publish (.fieldSet o.path { o with fields := set.fields } hfragments hmanned hnear ⟨o.fields, hwithin⟩) rfl
          hadds.inbox (fun _ _ hst hge => absurd (hstreams ▸ Publisher.lt_size_of_stream? hst) (Nat.not_lt.2 hge))
          ⟨rfl, ⟨⟨_, hadds.new, rfl⟩, fun field hfield => ?_⟩, Function.update_self _ _ _⟩)
        fun id l' hand' s' _ _ ⟨hhand, hreported⟩ => Does.pure ⟨hhand, rfl, hreported⟩
      obtain ⟨hown, hinitial, hdirect⟩ := hfields field hfield
      have hall : field ∈ collected.allFields :=
        List.mem_append_right _ (List.mem_flatMap.2 ⟨set, hset, hfield⟩)
      have hreached : field.2.reached ⊆ reached ++ collected.newUsages.map .deferred :=
        fun t ht => (hfits.reaches field hall t ht).mem
      have hgrows := Publisher.Grows.addFieldSet s.publisher o.path (Publisher.fragmentsIn deferMap set.targets)
      refine ⟨hroots.fieldSet hreached hparent hne hinitial hdirect hgrows
        (hc.sound.publisher.addFieldSet o.path hfragments).linked fun f hf => ⟨_, hadds.new, hf⟩,
        fun hnot => absurd ⟨_, hadds.new⟩ hnot⟩
    · rintro e l₁ _ s' hl hc' ⟨rfl, rfl, he, hset⟩
      have hmanned' : s'.Manned home (e.2 :: hand) := (hmanned.later hl).mono (List.subset_cons_self _ _)
      refine Does.bind (ih (fun set' hset' => hsets (List.mem_cons_of_mem _ hset')) (hl.grows.isHome hhome) hmanned'
        (fun hnot => hparent fun hset' => hnot (hl.grows.isFieldSet hset')) (fun e he => hl.grows.isFragment (hmap e he))
        (hroots.grows hl.grows hc'.sound.publisher.linked hhome.lt_size)
        (hl.encloses hc.sound.publisher.linked hwithin)) ?_
      rintro out l₂ hand' s'' hl' - ⟨hperm, hout, hall⟩
      refine Does.pure ⟨?_, by rw [List.map_cons, hout], fun e' he' => ?_⟩
      · refine hperm.trans ?_
        rw [List.map_cons, List.cons_append]
        exact List.perm_middle
      · rcases List.mem_cons.1 he' with rfl | he'
        · exact ⟨hl'.reported hc'.sound.publisher.linked he,
            (hl'.sets _ he.isFieldSet.isHome.lt_size).trans hset⟩
        · exact hall e' he'

/-- The sets of fields of an object. -/
structure Ledger.Spawns (c : ExecutionContext) (l : Ledger) (s : ExecStage) (o : ObjectFields)
    (e : NewFieldSet × RecordId) : Prop where
  fields : c.FieldsAt { o.selected with fields := e.1.fields }
  reported : s.publisher.Registered o.path o.deferMap e
  set : l.sets e.2 = { o.selected with fields := e.1.fields }
  known : ∀ field ∈ e.1.fields, l.Knows s.memory field.2

theorem Ledger.Spawns.later {o : ObjectFields} {e : NewFieldSet × RecordId} (h : l.Spawns c s o e) (hl : l.Later s l' s')
    (hlinked : s.publisher.Linked) : l'.Spawns c s' o e :=
  ⟨h.fields, hl.reported hlinked h.reported, (hl.sets _ h.reported.isFieldSet.isHome.lt_size).trans h.set,
    fun field hfield => hl.knows (h.known field hfield)⟩

theorem does_spawnFieldSets {o : ObjectFields} (sets : List (NewFieldSet × RecordId))
    (hmap : ∀ e ∈ o.deferMap, s.publisher.IsFragment e.2) (hsets : ∀ e ∈ sets, l.Spawns c s o e) :
    Does c (spawnFieldSets c o sets) l (sets.map Prod.snd ++ hand) s fun _ l' hand' _ => l' = l ∧ hand' = hand := by
  induction sets generalizing s with
  | nil => exact Does.pure ⟨rfl, rfl⟩
  | cons e rest ih =>
    obtain ⟨set, id⟩ := e
    obtain ⟨hfields, hreported, hset, hknown⟩ := hsets (set, id) List.mem_cons_self
    dsimp only at hset
    unfold spawnFieldSets
    dsimp only
    have hid : s.publisher.IsFieldSet id := hreported.isFieldSet
    have ho : s.publisher.Serves id id o.deferMap := ⟨rfl, hid.isHome, hmap⟩
    have hcovers : l.CoversFields c s id { o with fields := set.fields, record := id } := by
      refine ⟨⟨_, hfields, fun _ h => h, ?_⟩, ho, fun field hfield => ⟨hknown field hfield, hreported.rooted field hfield⟩⟩
      have hself := Ledger.Encloses.self (.fields (c := c) (l := l) hid)
      rw [hset, hreported.seat] at hself
      exact hself
    have hjob : ∀ {m : ExecM Job} {P : Job → Prop}, Steady m P →
        (∀ job, P job → job.Meant c l s id ∧ ∀ told fate, job.Comes c told fate →
          (c.asked { o.selected with fields := set.fields }).Comes c told fate) →
        Does c (do
          let job ← m
          Execution.spawn (.fieldSet o.path id job)
          spawnFieldSets c o rest) l (id :: (rest.map Prod.snd ++ hand)) s fun _ l' hand' _ => l' = l ∧ hand' = hand := by
      intro m P hm hmeant
      refine Does.clear fun hc => Does.steady_bind hm fun job s' hl hp hP => ?_
      obtain ⟨hmeant, hcomes⟩ := hmeant job hP
      have htask : Task.Meant c l s (.fieldSet o.path id job) :=
        ⟨hmeant, hreported.record, hset ▸ hfields, hset ▸ rfl, fun told _ fate hfate => hset ▸ hcomes told fate hfate⟩
      refine Does.bind (Does.spawn (.fieldSet o.path id job)
        (Q := fun _ l' hand' _ => l' = l ∧ hand' = rest.map Prod.snd ++ hand) (by rw [hp]; exact ⟨hid, hmeant.sites⟩)
        (hl.task hc.sound.publisher.linked (hl.noted _) htask) fun _ _ => ⟨rfl, rfl⟩) ?_
      rintro - _ _ s'' hl' - ⟨rfl, rfl⟩
      have hlater := hl.trans hl'
      refine ih (fun e he => hlater.grows.isFragment (hmap e he)) fun e he => ?_
      exact (hsets e (List.mem_cons_of_mem _ he)).later hlater hc.sound.publisher.linked
    split
    · refine hjob (Steady.pure rfl) fun job hP => ?_
      subst hP
      exact ⟨hcovers, fun told fate hfate => hfate⟩
    · refine hjob (steady_selectFields c { o with fields := set.fields, record := id }) fun job hP => ?_
      subst hP
      exact ⟨hcovers.job, fun told fate hfate => (ObjectFields.comes_job _ told fate).1 hfate⟩

/-! ### Objects -/

/-- What goes on stands where it should, and nothing may become of it but what may become of what is asked for. -/
def Progress.Completes (c : ExecutionContext) (asked : Asked) (home : RecordId) (hand : List RecordId)
    (progress : Progress) (l' : Ledger) (hand' : List RecordId) (s' : ExecStage) : Prop :=
  hand' = hand ∧ progress.Meant c l' s' home ∧ ∀ told fate, progress.Comes c told fate → asked.Comes c told fate

theorem Progress.Completes.done {asked : Asked} {out : Except Error Json} (h : ∀ told, asked.Comes c told (.out out)) :
    (Progress.done out).Completes c asked home hand l hand s :=
  ⟨rfl, trivial, fun told _ heq => heq ▸ h told⟩

/-- The fields that are collected with those around them stand near the record. -/
theorem CollectedFields.Fits.rooted {p : Publisher Task} {first : Nat} {reached : List Target} {parent : TargetSet}
    {collected : CollectedFields} (h : collected.Fits first reached parent) {deferMap : DeferMap}
    (hparent : ¬ p.IsFieldSet home → parent = .initial)
    (hroots : p.Roots home (reached ++ collected.newUsages.map .deferred) deferMap) :
    ∀ field ∈ collected.fields, p.Rooted home field.2 deferMap := by
  intro field hfield
  refine ⟨hroots.sub fun t ht => (h.reaches field (List.mem_append_left _ hfield) t ht).mem, fun hnot => ?_⟩
  rw [h.own field hfield]
  exact hparent hnot

/-- The fields of an object are resolved, and the sets of deferred ones are spawned. -/
theorem does_goOn {o : ObjectFields} {sets : List (NewFieldSet × RecordId)} {m : ExecM Job} {P : Job → Prop}
    (hm : Steady m P) {asked : Asked}
    (hP : ∀ job, P job → job.Meant c l s home ∧ ∀ told fate, job.Comes c told fate → asked.Comes c told fate)
    (hmap : ∀ e ∈ o.deferMap, s.publisher.IsFragment e.2) (hsets : ∀ e ∈ sets, l.Spawns c s o e) :
    Does c (do
      let data ← m
      spawnFieldSets c o sets
      return Progress.go data) l (sets.map Prod.snd ++ hand) s (Progress.Completes c asked home hand) := by
  refine Does.clear fun hc => Does.steady_bind hm fun job s' hl hp hjob => ?_
  have hsets' : ∀ e ∈ sets, l.Spawns c s' o e := fun e he => (hsets e he).later hl hc.sound.publisher.linked
  refine Does.bind (does_spawnFieldSets sets (fun e he => hl.grows.isFragment (hmap e he)) hsets') ?_
  rintro - _ _ s'' hl' - ⟨rfl, rfl⟩
  obtain ⟨hmeant, hcomes⟩ := hP job hjob
  exact Does.pure ⟨rfl, (hl.trans hl').meant hc.sound.publisher.linked hmeant, hcomes⟩

/-- What was collected for an object: the fields of the sets are asked for, and their groups are known. -/
structure Ledger.Found (c : ExecutionContext) (l : Ledger) (s : ExecStage) (o : Selected) (first : Nat)
    (reached : List Target) (parent : TargetSet) (collected : CollectedFields) : Prop where
  positive : 0 < first
  below : ∀ v, .deferred v ∈ reached → v.id < first
  fits : collected.Fits first reached parent
  fields : ∀ fields ∈ collected.sets, c.FieldsAt { o with fields := fields }
  own : o.fields = collected.fields
  known : ∀ field ∈ collected.allFields, l.Knows s.memory field.2

/-- What was collected for an object is reported, and its fields go on. -/
theorem does_found {o : Selected} {first : Nat} {reached : List Target} {parent : TargetSet}
    {collected : CollectedFields} (hfound : l.Found c s o first reached parent collected) {record : RecordId}
    {deferMap : DeferMap} (hserves : s.publisher.Serves home record deferMap) (hmanned : s.Manned home hand)
    (hparent : ¬ s.publisher.IsFieldSet home → parent = .initial) (hroots : s.publisher.Roots home reached deferMap)
    (hwithin : l.Encloses c s.publisher home o.path (c.asked o)) {asked : Asked} {m : ObjectFields → ExecM Job}
    {P : ObjectFields → Job → Prop} (hm : ∀ o, Steady (m o) (P o))
    (hP : ∀ (all : ObjectFields) job, all.selected = o → P all job → (∀ (l' : Ledger) (s' : ExecStage),
      l'.CoversFields c s' home all → job.Meant c l' s' home) ∧
      ∀ told fate, job.Comes c told fate → asked.Comes c told fate) :
    Does c (do
      let deferMap ← addFragments o.path record collected.newUsages deferMap
      let sets ← addFieldSets o.path deferMap collected.newSets
      let data ← m ⟨o.typeName, o.parent, o.path, collected.fields, record, deferMap⟩
      spawnFieldSets c ⟨o.typeName, o.parent, o.path, collected.fields, record, deferMap⟩ sets
      return Progress.go data) l hand s (Progress.Completes c asked home hand) := by
  obtain ⟨hpositive, hbelow, hfits, hfields, hown, hknown⟩ := hfound
  have hrecord : record = home := hserves.record
  subst hrecord
  refine Does.clear fun hc => Does.bind (does_addFragments o.path collected.newUsages hserves.home hserves.fragments hroots
    (hfits.usages.chained hpositive hbelow)) ?_
  rintro deferMap₁ _ _ s₁ hl₁ hc₁ ⟨rfl, rfl, hmap₁, hroots₁⟩
  have hparent₁ : ¬ s₁.publisher.IsFieldSet record → parent = .initial :=
    fun hnot => hparent fun hset => hnot (hl₁.grows.isFieldSet hset)
  have hhome₁ := hl₁.grows.isHome hserves.home
  have hwithin₁ := hl₁.encloses hc.sound.publisher.linked hwithin
  refine Does.bind (does_addFieldSets hfits o collected.newSets (fun _ h => h) hhome₁ (hmanned.later hl₁) hparent₁
    hmap₁ hroots₁ hwithin₁) ?_
  rintro sets l₂ hand₂ s₂ hl₂ hc₂ ⟨hperm, hsets, hreported⟩
  have hlater := hl₁.trans hl₂
  have hroots₂ := hroots₁.grows hl₂.grows hc₂.sound.publisher.linked hhome₁.lt_size
  have hparent₂ : ¬ s₂.publisher.IsFieldSet record → parent = .initial :=
    fun hnot => hparent₁ fun hset => hnot (hl₂.grows.isFieldSet hset)
  have hmap₂ : ∀ e ∈ deferMap₁, s₂.publisher.IsFragment e.2 := fun e he => hl₂.grows.isFragment (hmap₁ e he)
  have hcovers : l₂.CoversFields c s₂ record ⟨o.typeName, o.parent, o.path, collected.fields, record, deferMap₁⟩ :=
    ⟨⟨o.fields, hfields _ (hown ▸ List.mem_cons_self), hown ▸ fun _ h => h, hl₂.encloses hc₁.sound.publisher.linked hwithin₁⟩,
      ⟨rfl, hl₂.grows.isHome hhome₁, hmap₂⟩,
      fun field hfield => ⟨hlater.knows (hknown field (List.mem_append_left _ hfield)),
        hfits.rooted hparent₂ hroots₂ field hfield⟩⟩
  refine Does.perm hperm (does_goOn (P := P ⟨o.typeName, o.parent, o.path, collected.fields, record, deferMap₁⟩) (hm _)
    (fun job hjob => ?_) hmap₂ fun e he => ?_)
  · obtain ⟨hmeant, hcomes⟩ := hP _ job (by unfold ObjectFields.selected; rw [← hown]) hjob
    exact ⟨hmeant l₂ s₂ hcovers, hcomes⟩
  · have hset : e.1 ∈ collected.newSets := hsets ▸ List.mem_map_of_mem he
    refine ⟨hfields _ (List.mem_cons_of_mem _ (List.mem_map_of_mem hset)), (hreported e he).1, (hreported e he).2,
      fun field hfield => ?_⟩
    exact hlater.knows (hknown field (List.mem_append_right _ (List.mem_flatMap.2 ⟨e.1, hset, hfield⟩)))

theorem does_completeObject {type : TypeRef} {site : Site} {value : FieldValue} {typeName : String} {v : Json}
    (hcovers : l.Covers c s home type site value)
    (hdemand : c.demand type site.place value = c.objectDemand typeName site.place v) (hmanned : s.Manned home hand) :
    Does c (completeObject c typeName site v) l hand s
      (Progress.Completes c (.value type site.place value) home hand) := by
  refine Does.clear fun hc => ?_
  unfold ExecutionContext.objectDemand at hdemand
  unfold completeObject
  extract_lets isOfType at hdemand ⊢
  split
  · rename_i hnot
    exact Does.pure (.done fun _ => .outcome (hdemand.trans (if_neg (Bool.eq_false_iff.1 (by simpa using hnot : isOfType = false)))))
  · rename_i hyes
    have hobject : c.demand type site.place value = .object typeName v :=
      hdemand.trans (if_pos (by simpa using hyes : isOfType = true))
    refine Does.get_bind ?_
    dsimp only
    obtain ⟨l₁, hcontinues, hexplains, hcollected⟩ := hc.explains.collectSubfields hcovers.known typeName
    refine Does.set_bind ⟨rfl, rfl, rfl⟩ hcontinues hexplains ?_
    have hlater : l.Later s l₁ { s with memory := { s.memory with
        collector := (s.memory.collector.collectSubfields c.collection typeName site.group).2 } } :=
      hcontinues.later rfl
    have hcovers₁ := hlater.covers hc.sound.publisher.linked hcovers
    split
    · rename_i e heq
      rw [heq] at hcollected
      exact Does.pure (.done fun _ => .uncollected hobject hcollected)
    · rename_i collected heq
      rw [heq] at hcollected
      obtain ⟨hcollects, ⟨first, hfirst, hbelow, hfits⟩, hknown⟩ := hcollected
      have hfields : ∀ fields ∈ collected.sets, c.FieldsAt ⟨typeName, v, site.path, fields⟩ :=
        fun fields hfields => .object hcovers.value hobject hcollects hfields
      refine does_found (o := ⟨typeName, v, site.path, collected.fields⟩)
        ⟨hfirst, hbelow, hfits, hfields, rfl, hknown⟩ hcovers₁.serves (hmanned.later hlater) hcovers₁.rooted.targets
        hcovers₁.rooted.roots (hcovers₁.within.object hobject hcollects) (m := selectFields c)
        (fun o => steady_selectFields c o) fun o job ho hjob => ?_
      subst hjob
      refine ⟨fun l s hcovers => hcovers.job, fun told fate hfate => .object hobject hcollects ?_⟩
      have hcomes := (ObjectFields.comes_job o told fate).1 hfate
      rw [ho] at hcomes
      exact hcomes

end GraphQL
