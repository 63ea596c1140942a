import GraphQL.Proofs.Execution.Handled
import GraphQL.Proofs.Execution.HasNext

/-!
# Each fragment and each stream is completed once

The `completed` entries of the results are those of the records that were handled, in their order: one for each fragment
and one for each record that was the final one of its stream (`Course.completed_resultsOf`).  If no record is handled
twice, none of them is for the same fragment or stream as another one (`Course.nodup_completions`): the records of a
stream are handled one after the other, and after a final one no other.

Records are overtaken all the same, if two fragments that share a set of fields are not delivered together
(`items_handled_twice`).
-/

namespace GraphQL

open Execution Stage

/-- What a `completed` entry is for. -/
inductive Completion where
  | fragment (id : RecordId)
  | stream (id : StreamId)
deriving DecidableEq, Repr

namespace Publisher

variable {ω : Type}

/-- What is completed with the delivery of a record. -/
def completes (p : Publisher ω) (id : RecordId) : Option Completion :=
  match p.record? id with
  | some (.items r) => if r.final then some (.stream r.stream) else none
  | some (.fragment _) => some (.fragment id)
  | _ => none

/-- What is completed with the delivery of what is released. -/
def completing (p : Publisher ω) : List Completion := p.released.filterMap p.completes

/-- The entry for it. -/
def completedEntry (p : Publisher ω) : Completion → CompletedEntry
  | .fragment id =>
    match p.record? id with
    | some (.fragment r) => ⟨r.path, r.label, r.errors⟩
    | _ => default
  | .stream id =>
    let stream := (p.stream? id).getD default
    ⟨stream.path, stream.label, stream.errors⟩

theorem completes_eq_stream {p : Publisher ω} {id : RecordId} {stream : StreamId} :
    p.completes id = some (.stream stream) ↔ ∃ r, p.record? id = some (.items r) ∧ r.final = true ∧ r.stream = stream := by
  unfold completes
  constructor
  · intro h
    split at h
    · rename_i r hr
      split at h
      · rename_i hfinal
        cases h
        exact ⟨r, hr, hfinal, rfl⟩
      · exact absurd h (by simp)
    · exact absurd h (by simp)
    · exact absurd h (by simp)
  · rintro ⟨r, hr, hfinal, rfl⟩
    rw [hr]
    exact if_pos hfinal

theorem completes_eq_fragment {p : Publisher ω} {id fragment : RecordId}
    (h : p.completes id = some (.fragment fragment)) : fragment = id := by
  unfold completes at h
  split at h
  · split at h <;> simp at h
  · exact (Completion.fragment.inj (Option.some.inj h)).symm
  · exact absurd h (by simp)

theorem completedEntries_eq (p : Publisher ω) (id : RecordId) :
    p.completedEntries id = (p.completes id).toList.map p.completedEntry := by
  unfold completedEntries completes
  cases hr : p.record? id with
  | none => rfl
  | some r =>
    cases r with
    | items r =>
      dsimp only
      cases r.final <;> rfl
    | fragment r => simp [completedEntry, hr]
    | _ => rfl

theorem map_completing (p : Publisher ω) :
    p.completing.map p.completedEntry = p.released.flatMap p.completedEntries := by
  unfold completing
  induction p.released with
  | nil => rfl
  | cons id rest ih =>
    rw [List.flatMap_cons, completedEntries_eq, ← ih, List.filterMap_cons]
    cases p.completes id <;> rfl

end Publisher

/-- What is completed with the looks, in their order. -/
def completions (looks : List (Publisher Task)) : List Completion := looks.flatMap Publisher.completing

variable {c : ExecutionContext} {s₀ s : ExecStage} {looks : List (Publisher Task)}

/-- The `completed` entries of the results are those of what is completed. -/
theorem Course.completed_resultsOf (h : Course c s₀ looks s) (h₀ : Sound [] s₀) :
    (resultsOf looks).flatMap SubsequentResult.completed = looks.flatMap fun p => p.completing.map p.completedEntry := by
  refine (h.rec_moves (I := fun looks _ => (resultsOf looks).flatMap SubsequentResult.completed =
    looks.flatMap fun p => p.completing.map p.completedEntry) h₀ rfl (fun _ _ _ _ _ ih => ih) ?_).2
  intro looks s hs ih
  have hhandled := hs.publisher.nextResult?
  rw [resultsOf_append, resultsOf_singleton, List.flatMap_append, List.flatMap_append, ih]
  congr 1
  rw [List.flatMap_singleton, Publisher.map_completing]
  cases hr : s.publisher.nextResult?.2 with
  | none => exact (hhandled.silent hr).1.symm
  | some r => exact (List.flatMap_singleton _ _).trans (hhandled.completed r hr)

/-! ### Records that were handled -/

/-- What was handled is there, and items that were are completed. -/
structure Settled (looks : List (Publisher Task)) (p : Publisher Task) : Prop where
  lt_size : ∀ id ∈ handled looks, id.index < p.records.size
  completed : ∀ id r, id ∈ handled looks → p.record? id = some (.items r) → r.completed = true

theorem Course.settled (h : Course c s₀ looks s) (h₀ : Sound [] s₀) : Settled looks s.publisher := by
  refine (h.rec_moves (I := fun looks s => Settled looks s.publisher) h₀ ?_ ?_ ?_).2
  · exact ⟨fun _ hid => absurd hid (by simp [handled]), fun _ _ hid => absurd hid (by simp [handled])⟩
  · intro looks s s' hs hm ih
    have hpasses := hm.passes hs
    refine ⟨fun id hid => Nat.lt_of_lt_of_le (ih.lt_size id hid) hpasses.size, fun id r' hid hr' => ?_⟩
    obtain ⟨r, hr, -, -, hsettled⟩ := hpasses.items id r' hr' (ih.lt_size id hid)
    exact (hsettled (ih.completed id r hid hr)).1
  · intro looks s hs ih
    have halike := hs.publisher.nextResult?.alike
    have hthere : ∀ id ∈ handled (looks ++ [s.publisher]), ∃ r, s.publisher.record? id = some r := by
      intro id hid
      rw [handled_concat, List.mem_append] at hid
      rcases hid with hid | hid
      · exact Publisher.exists_record? (ih.lt_size id hid)
      · obtain ⟨r, hr, -⟩ := hs.publisher.prompt.deliverable id (hs.publisher.prompt.released id hid)
        exact ⟨r, hr⟩
    refine ⟨fun id hid => ?_, fun id r' hid hr' => ?_⟩
    · obtain ⟨r, hr⟩ := hthere id hid
      obtain ⟨r', hr', -⟩ := halike.record? hr
      exact Publisher.lt_size_of_record? hr'
    · obtain ⟨r, hr, -, -, -, hc, -⟩ := halike.items hr'
      rw [hc]
      rw [handled_concat, List.mem_append] at hid
      rcases hid with hid | hid
      · exact ih.completed id r hid hr
      · exact hs.publisher.prompt.completed id r hid hr

/-! ### Streams -/

/-- The records of each stream are handled one after the other, and none after a final one. -/
structure InTurn (looks : List (Publisher Task)) (p : Publisher Task) : Prop where
  earlier : ∀ stream a b, p.OfStream stream a → p.OfStream stream b → a.index < b.index →
    b ∈ handled looks ++ p.pending → a ∈ handled looks
  later : ∀ a b r, p.record? a = some (.items r) → r.final = true → p.OfStream r.stream b → a.index < b.index →
    a ∈ handled looks → b ∉ handled looks ++ p.pending
  streams : ∀ stream, .stream stream ∈ completions looks →
    ∃ a ∈ handled looks, ∃ r, p.record? a = some (.items r) ∧ r.final = true ∧ r.stream = stream
  nodup : (completions looks).Nodup

private theorem InTurn.start (h₀ : s₀.Begun) : InTurn [] s₀.publisher := by
  refine ⟨fun stream a b ha hb hlt hid => ?_, fun _ _ _ _ _ _ _ ha => absurd ha (by simp [handled]),
    fun stream hs => absurd hs (by simp [completions]), List.nodup_nil⟩
  have hid' : b ∈ s₀.publisher.pending := hid
  obtain ⟨r, hr, hmem, -⟩ := h₀.pending b hid'
  obtain ⟨⟨r', hr', -⟩, -⟩ := h₀.ordered.parent stream a b ha hb hlt .initial (Publisher.mem_kids.2 ⟨r, hr, hmem⟩)
  obtain ⟨r₀, hr₀⟩ := h₀.initial
  rw [hr₀] at hr'
  exact absurd hr' (by simp)

private theorem InTurn.moves {s' : ExecStage} (h : InTurn looks s.publisher) (hset : Settled looks s.publisher)
    (hs : Sound [] s) (m : Moves [] s [] s') : InTurn looks s'.publisher := by
  have hpasses := m.passes hs
  have hpending : s'.publisher.pending = s.publisher.pending := m.retains.pending
  have hlt_size : ∀ {id}, id ∈ handled looks ++ s'.publisher.pending → id.index < s.publisher.records.size := by
    intro id hid
    rw [hpending] at hid
    rcases List.mem_append.1 hid with hid | hid
    · exact hset.lt_size id hid
    · obtain ⟨r, hr, -⟩ := hs.publisher.prompt.deliverable id hid
      exact Publisher.lt_size_of_record? hr
  have hold : ∀ {stream id}, s'.publisher.OfStream stream id → id.index < s.publisher.records.size →
      s.publisher.OfStream stream id := by
    rintro stream id ⟨r', hr', hs'⟩ hlt
    obtain ⟨r, hr, hs, -⟩ := hpasses.items id r' hr' hlt
    exact ⟨r, hr, hs.symm.trans hs'⟩
  refine ⟨fun stream a b ha hb hlt hid => ?_, fun a b r' hr' hf hb hlt ha hid => ?_, fun stream hmem => ?_, h.nodup⟩
  · have hblt := hlt_size hid
    rw [hpending] at hid
    exact h.earlier stream a b (hold ha (Nat.lt_trans hlt hblt)) (hold hb hblt) hlt hid
  · have hblt := hlt_size hid
    rw [hpending] at hid
    obtain ⟨r, hr, hstream, -, hsettled⟩ := hpasses.items a r' hr' (hset.lt_size a ha)
    have hfinal := (hsettled (hset.completed a r ha hr)).2 hf
    exact h.later a b r hr hfinal (hold (hstream ▸ hb) hblt) hlt ha hid
  · obtain ⟨a, ha, r, hr, hf, hstream⟩ := h.streams stream hmem
    obtain ⟨r', hr', hg⟩ := m.grows.records a _ hr
    cases hg with
    | items hs' _ _ _ hfinal => exact ⟨a, ha, _, hr', hfinal hf, hs'.trans hstream⟩

/-- A look handles the next records of each stream. -/
private theorem InTurn.look (h : InTurn looks s.publisher) (hs : Sound [] s) (ho : s.publisher.Ordered)
    (hfragments : ∀ id, .fragment id ∈ completions looks → id ∈ handled looks)
    (hnodup : (handled looks ++ s.publisher.pending).Nodup) : InTurn (looks ++ [s.publisher]) s.look.publisher := by
  have hhandled := hs.publisher.nextResult?
  have hprompt := hs.publisher.prompt
  have hdisjoint : ∀ {id}, id ∈ handled looks → id ∉ s.publisher.pending := fun ha hp =>
    (List.nodup_append.1 hnodup).2.2 _ ha _ hp rfl
  have hold : ∀ {stream id}, s.look.publisher.OfStream stream id → s.publisher.OfStream stream id := by
    rintro stream id ⟨r', hr', hs'⟩
    obtain ⟨r, hr, hs, -⟩ := hhandled.alike.items hr'
    exact ⟨r, hr, hs.symm.trans hs'⟩
  -- what is handled or pending after the look was so before it, or it follows what is released
  have hcases : ∀ {id}, id ∈ handled (looks ++ [s.publisher]) ++ s.look.publisher.pending →
      id ∈ handled looks ++ s.publisher.pending ∨ ∃ parent ∈ s.publisher.released, s.publisher.Follows parent id := by
    intro id hid
    rw [handled_concat, List.append_assoc] at hid
    rcases List.mem_append.1 hid with hid | hid
    · exact Or.inl (List.mem_append_left _ hid)
    rcases List.mem_append.1 hid with hid | hid
    · exact Or.inl (List.mem_append_right _ (hprompt.released id hid))
    · rcases (hhandled.pending id).1 hid with ⟨hid, -⟩ | hfollows
      · exact Or.inl (List.mem_append_right _ hid)
      · exact Or.inr hfollows
  have hparent : ∀ {stream a b parent}, s.publisher.OfStream stream a → s.publisher.OfStream stream b →
      a.index < b.index → s.publisher.Follows parent b → parent = a ∨
        s.publisher.OfStream stream parent ∧ a.index < parent.index := by
    rintro stream a b parent ha hb hlt ⟨r, hr, hmem, -⟩
    obtain ⟨hparent, hle⟩ := ho.parent stream a b ha hb hlt parent (Publisher.mem_kids.2 ⟨r, hr, hmem⟩)
    rcases Nat.lt_or_eq_of_le hle with hlt | heq
    · exact Or.inr ⟨hparent, hlt⟩
    · exact Or.inl (RecordId.index_inj.1 heq.symm)
  have hreleased : ∀ {id}, id ∈ s.publisher.released → id ∈ handled looks ++ s.publisher.pending := fun hid =>
    List.mem_append_right _ (hprompt.released _ hid)
  refine ⟨fun stream a b ha hb hlt hid => ?_, fun a b r' hr' hf hb hlt ha hid => ?_, fun stream hmem => ?_, ?_⟩
  · rw [handled_concat, List.mem_append]
    rcases hcases hid with hid | ⟨parent, hrel, hfollows⟩
    · exact Or.inl (h.earlier stream a b (hold ha) (hold hb) hlt hid)
    · rcases hparent (hold ha) (hold hb) hlt hfollows with rfl | ⟨hof, hlt'⟩
      · exact Or.inr hrel
      · exact Or.inl (h.earlier stream a parent (hold ha) hof hlt' (hreleased hrel))
  · obtain ⟨r, hr, hstream, -, -, -, hfinal, -⟩ := hhandled.alike.items hr'
    rw [hfinal] at hf
    rw [hstream] at hb
    have hof : s.publisher.OfStream r.stream a := ⟨r, hr, rfl⟩
    rw [handled_concat, List.mem_append] at ha
    rcases hcases hid with hid | ⟨parent, hrel, hfollows⟩
    · rcases ha with ha | ha
      · exact h.later a b r hr hf (hold hb) hlt ha hid
      · exact hdisjoint (h.earlier r.stream a b hof (hold hb) hlt hid) (hprompt.released a ha)
    · rcases hparent hof (hold hb) hlt hfollows with rfl | ⟨hofparent, hlt'⟩
      · rcases ha with ha | -
        · exact hdisjoint ha (hprompt.released _ hrel)
        · obtain ⟨rb, hrb, hsb⟩ := hold hb
          have hfiltered := ho.final _ b r rb hr hf hrb hsb hlt
          obtain ⟨-, -, -, hnot⟩ := hfollows
          rw [hrb] at hnot
          exact absurd (hnot.symm.trans hfiltered) (by simp)
      · rcases ha with ha | ha
        · exact h.later a parent r hr hf hofparent hlt' ha (hreleased hrel)
        · exact hdisjoint (h.earlier r.stream a parent hof hofparent hlt' (hreleased hrel)) (hprompt.released a ha)
  · rw [completions, List.flatMap_append, List.mem_append, List.flatMap_singleton] at hmem
    have hsome : ∃ a ∈ handled looks ++ s.publisher.released, ∃ r, s.publisher.record? a = some (.items r) ∧
        r.final = true ∧ r.stream = stream := by
      rcases hmem with hmem | hmem
      · obtain ⟨a, ha, hrest⟩ := h.streams stream hmem
        exact ⟨a, List.mem_append_left _ ha, hrest⟩
      · obtain ⟨a, ha, hcompletes⟩ := List.mem_filterMap.1 hmem
        exact ⟨a, List.mem_append_right _ ha, Publisher.completes_eq_stream.1 hcompletes⟩
    obtain ⟨a, ha, r, hr, hf, hstream⟩ := hsome
    obtain ⟨r', hr', hs', -, -, -, hf', -⟩ := hhandled.alike.symm.items hr
    exact ⟨a, by rw [handled_concat]; exact ha, r', hr', hf'.symm.trans hf, hs'.symm.trans hstream⟩
  · -- two final records of a stream that are handled are one
    have hone : ∀ {a b : RecordId} {r r' : ItemsRecord}, s.publisher.record? a = some (.items r) → r.final = true →
        s.publisher.record? b = some (.items r') → r'.stream = r.stream → r'.final = true →
        a ∈ handled looks ++ s.publisher.released → b ∈ s.publisher.released → a = b := by
      intro a b r r' hr hf hr' hstream hf' ha hb
      rcases Nat.lt_trichotomy a.index b.index with hlt | heq | hlt
      · have hearlier := h.earlier r.stream a b ⟨r, hr, rfl⟩ ⟨r', hr', hstream⟩ hlt (hreleased hb)
        exact absurd (hreleased hb) (h.later a b r hr hf ⟨r', hr', hstream⟩ hlt hearlier)
      · exact RecordId.index_inj.1 heq
      · have ha' : a ∈ handled looks ++ s.publisher.pending :=
          (List.mem_append.1 ha).elim (List.mem_append_left _) hreleased
        exact absurd (hprompt.released b hb)
          (hdisjoint (h.earlier r.stream b a ⟨r', hr', hstream⟩ ⟨r, hr, rfl⟩ hlt ha'))
    rw [completions, List.flatMap_append, List.flatMap_singleton]
    refine List.nodup_append.2 ⟨h.nodup, ?_, ?_⟩
    · refine List.pairwise_filterMap.2 (hprompt.releasedNodup.imp_of_mem fun ha hb hne done hdone done' hdone' heq => ?_)
      subst heq
      cases done with
      | fragment id =>
        exact hne ((Publisher.completes_eq_fragment hdone).symm.trans (Publisher.completes_eq_fragment hdone'))
      | stream stream =>
        obtain ⟨r, hr, hf, hstream⟩ := Publisher.completes_eq_stream.1 hdone
        obtain ⟨r', hr', hf', hstream'⟩ := Publisher.completes_eq_stream.1 hdone'
        exact hne (hone hr hf hr' (hstream'.trans hstream.symm) hf' (List.mem_append_right _ ha) hb)
    · rintro done hdone _ hmem rfl
      obtain ⟨b, hb, hcompletes⟩ := List.mem_filterMap.1 hmem
      cases done with
      | fragment id =>
        obtain rfl := Publisher.completes_eq_fragment hcompletes
        exact hdisjoint (hfragments id hdone) (hprompt.released id hb)
      | stream stream =>
        obtain ⟨r', hr', hf', hstream'⟩ := Publisher.completes_eq_stream.1 hcompletes
        obtain ⟨a, ha, r, hr, hf, hstream⟩ := h.streams stream hdone
        obtain rfl := hone hr hf hr' (hstream'.trans hstream.symm) hf' (List.mem_append_left _ ha) hb
        exact hdisjoint ha (hprompt.released a hb)

private theorem fragment_mem_handled {id : RecordId} (h : .fragment id ∈ completions looks) : id ∈ handled looks := by
  obtain ⟨p, hp, hmem⟩ := List.mem_flatMap.1 h
  obtain ⟨released, hreleased, hcompletes⟩ := List.mem_filterMap.1 hmem
  obtain rfl := Publisher.completes_eq_fragment hcompletes
  exact mem_handled.2 ⟨p, hp, hreleased⟩

theorem Course.inTurn (h : Course c s₀ looks s) (h₀ : s₀.Begun) :
    (handled looks ++ s.publisher.pending).Nodup → InTurn looks s.publisher := by
  induction h with
  | start => exact fun _ => InTurn.start h₀
  | inbox h ih =>
    exact fun hnodup => (ih hnodup).moves (h.settled h₀.sound) (h.sound h₀.sound) (moves_takeInbox [] _)
  | advance h time ih =>
    exact fun hnodup => (ih hnodup).moves (h.settled h₀.sound) (h.sound h₀.sound) (moves_advanceTo [] _ time)
  | work h hready hrun ih =>
    intro hnodup
    have hmoves := moves_runOne c (h.sound h₀.sound) hready hrun
    rw [hmoves.retains.pending] at hnodup
    exact (ih hnodup).moves (h.settled h₀.sound) (h.sound h₀.sound) hmoves
  | look h ih =>
    intro hnodup
    have hs := h.sound h₀.sound
    have hbefore := not_imp_not.1 (not_nodup_look hs) hnodup
    exact (ih hbefore).look hs (h.ordered h₀) (fun _ => fragment_mem_handled) hbefore

/-- If no record is handled twice, each fragment and each stream is completed at most once. -/
theorem Course.nodup_completions (h : Course c s₀ looks s) (h₀ : s₀.Begun)
    (hnodup : (handled looks ++ s.publisher.pending).Nodup) : (completions looks).Nodup :=
  (h.inTurn h₀ hnodup).nodup

/-! ### Whole responses -/

/-- A record that is stranded was not handled. -/
private theorem Course.not_handled_of_stranded (h : Course c s₀ looks s) (h₀ : Sound [] s₀) {id : RecordId}
    (hid : s.Stranded id) : id ∉ handled looks := by
  intro hmem
  obtain ⟨r, hr, hopen, -⟩ := hid.items
  have hcompleted := (h.settled h₀).completed id r hmem hr
  rw [hopen] at hcompleted
  exact absurd hcompleted (by simp)

/-- When the response is over, what is still pending was not handled. -/
private theorem Pulls.Stands.nodup_iff {results : List SubsequentResult} {s' : ExecStage}
    (h : Pulls.Stands s results s') (hcourse : Course c s₀ looks s) (h₀ : Sound [] s₀) (hended : s'.outputDone = true) :
    (GraphQL.handled looks ++ s.publisher.pending).Nodup ↔ (GraphQL.handled looks).Nodup := by
  have hsound := hcourse.sound h₀
  rw [List.nodup_append]
  refine ⟨fun hnodup => hnodup.1, fun hnodup => ⟨hnodup, hsound.publisher.prompt.nodup, ?_⟩⟩
  rintro id hid _ hid' rfl
  cases h with
  | going _ hopen => exact absurd hended (by simp [hopen])
  | last _ hnil => exact absurd hid' (by simp [hnil])
  | stalled _ _ hreleased htasks =>
    exact hcourse.not_handled_of_stranded h₀ (hsound.stranded htasks hreleased hid') hid

/-- On every course after the answer, nothing is handled or to be handled a second time exactly if no record is
overtaken, and then each fragment and each stream is completed at most once.  The pulls follow such a course, whose
results they give, with a `completed` entry for everything that is completed; once the response is over, no record was
handled twice exactly if none was overtaken. -/
theorem Pulls.nodup_handled_iff {initial : InitialResult} {results : List SubsequentResult} {s' : ExecStage}
    (h₀ : c.Answered initial s₀) (h : Pulls c s₀ results s') :
    (∀ looks s, Course c s₀ looks s → ((handled looks ++ s.publisher.pending).Nodup ↔ ¬ Overtaken looks) ∧
      (¬ Overtaken looks → (completions looks).Nodup)) ∧
    ∃ looks s, Course c s₀ looks s ∧ s'.publisher.pending = s.publisher.pending ∧ resultsOf looks = results ∧
      (results.flatMap SubsequentResult.completed = looks.flatMap fun p => p.completing.map p.completedEntry) ∧
      (s'.outputDone = true → ((handled looks).Nodup ↔ ¬ Overtaken looks)) := by
  obtain ⟨hs₀, hdone, -, hpending⟩ := h₀.sound
  have hbegun := h₀.begun
  refine ⟨fun looks s hcourse => ?_, ?_⟩
  · have hiff := hcourse.nodup_iff_not_overtaken hbegun
    exact ⟨hiff, fun hnot => hcourse.nodup_completions hbegun (hiff.2 hnot)⟩
  obtain ⟨looks, s, hcourse, rfl, hstands⟩ := h.course hs₀ hdone hpending
  refine ⟨looks, s, hcourse, ?_, rfl, hcourse.completed_resultsOf hs₀, fun hended => ?_⟩
  · cases hstands with
    | going hs => rw [hs]
    | last hover => exact hover.pending
    | stalled hover => exact hover.pending
  · rw [← hcourse.nodup_iff_not_overtaken hbegun, hstands.nodup_iff hcourse hs₀ hended]

/-! ### A record is handled twice -/

/-- The path of what is completed. -/
def Publisher.pathOf (p : Publisher Task) : Completion → Option Path
  | .fragment id =>
    match p.record? id with
    | some (.fragment r) => some r.path
    | _ => none
  | .stream id => (p.stream? id).map StreamRecord.path

private theorem pathOf_grows {n : Nat} {p q : Publisher Task} (h : Publisher.Grows n p q) {done : Completion} {path : Path}
    (hpath : p.pathOf done = some path) : q.pathOf done = some path := by
  cases done with
  | fragment id =>
    unfold Publisher.pathOf at hpath ⊢
    dsimp only at hpath ⊢
    split at hpath
    · rename_i r hr
      obtain ⟨r', hr', hg⟩ := h.records id _ hr
      cases hg with
      | fragment heq => rw [hr', ← hpath]; exact congrArg some heq
    · exact absurd hpath (by simp)
  | stream id =>
    obtain ⟨st, hst, rfl⟩ := Option.map_eq_some_iff.1 hpath
    obtain ⟨st', hst', heq, -⟩ := h.streams id st hst
    exact Option.map_eq_some_iff.2 ⟨st', hst', heq⟩

private theorem pathOf_alike {p q : Publisher Task} (h : p.Alike q) {done : Completion} {path : Path}
    (hpath : p.pathOf done = some path) : q.pathOf done = some path := by
  cases done with
  | fragment id =>
    unfold Publisher.pathOf at hpath ⊢
    dsimp only at hpath ⊢
    split at hpath
    · rename_i r hr
      rw [h.symm.fragment hr]
      exact hpath
    · exact absurd hpath (by simp)
  | stream id =>
    show (q.stream? id).map _ = _
    rw [h.stream? id]
    exact hpath

/-- The entries have the paths of what is completed. -/
theorem Course.paths_completions (h : Course c s₀ looks s) (h₀ : Sound [] s₀) :
    (completions looks).map s.publisher.pathOf =
      (((resultsOf looks).flatMap SubsequentResult.completed).map CompletedEntry.path).map some := by
  rw [h.completed_resultsOf h₀, List.map_map]
  have hkeep : ∀ {looks : List (Publisher Task)} {p q : Publisher Task},
      (∀ done path, p.pathOf done = some path → q.pathOf done = some path) →
      (completions looks).map p.pathOf =
        (looks.flatMap fun p => p.completing.map p.completedEntry).map (some ∘ CompletedEntry.path) →
      (completions looks).map q.pathOf =
        (looks.flatMap fun p => p.completing.map p.completedEntry).map (some ∘ CompletedEntry.path) := by
    intro looks p q hpq heq
    rw [← heq]
    refine List.map_congr_left fun done hdone => ?_
    have hmem := List.mem_map_of_mem (f := p.pathOf) hdone
    rw [heq] at hmem
    obtain ⟨entry, -, hentry⟩ := List.mem_map.1 hmem
    rw [← hentry]
    exact hpq done entry.path hentry.symm
  refine (h.rec_moves (I := fun looks s => (completions looks).map s.publisher.pathOf =
    (looks.flatMap fun p => p.completing.map p.completedEntry).map (some ∘ CompletedEntry.path)) h₀ rfl ?_ ?_).2
  · exact fun looks s s' _ hm ih => hkeep (fun _ _ => pathOf_grows hm.grows) ih
  · intro looks s hs ih
    refine hkeep (fun _ _ => pathOf_alike hs.publisher.nextResult?.alike) ?_
    rw [completions, List.flatMap_append, List.flatMap_append, List.map_append, List.map_append, ← ih]
    refine congrArg _ ?_
    rw [List.flatMap_singleton, List.flatMap_singleton, List.map_map]
    refine List.map_congr_left fun done hdone => ?_
    obtain ⟨id, -, hcompletes⟩ := List.mem_filterMap.1 hdone
    cases done with
    | fragment fragment =>
      obtain rfl := Publisher.completes_eq_fragment hcompletes
      unfold Publisher.completes at hcompletes
      split at hcompletes
      · split at hcompletes <;> exact absurd hcompletes (by simp)
      · rename_i r hr
        simp [Publisher.pathOf, Publisher.completedEntry, hr]
      · exact absurd hcompletes (by simp)
    | stream stream =>
      obtain ⟨r, hr, -, rfl⟩ := Publisher.completes_eq_stream.1 hcompletes
      obtain ⟨st, hst⟩ := hs.publisher.linked.streams id r hr
      simp [Publisher.pathOf, Publisher.completedEntry, hst]

/-- Two fragments share the set of fields that opens a stream, and one of them has another set that takes longer. -/
def sharedStream : ExecutionContext :=
  .ofSelections
    [.ofFields "Query" [("o", .named "O"), ("slow", .named "String")],
      .ofFields "O" [("l", .list (.named "String"))]]
    [("Query.slow", { resolve := fun _ => .ok (.later none 5 (.ok (.value (.string "z")))) })]
    (.object [("o", .object [("l", .array [.string "x"])]), ("slow", .string "z")])
    [.deferred [.named "o" [.streamed "l"]], .deferred [.named "o" [.streamed "l"], .named "slow"]]

/-- The record is no fragment but one of the whole response. -/
private def Record.atRoot : Record → Bool
  | fragment r => r.path = .root
  | _ => true

private theorem results_sharedStream : ∃ initial results s',
    (sharedStream.results 10).run sharedStream.stage = some (some (initial, results), s') ∧
      (results.flatMap SubsequentResult.completed).map CompletedEntry.path =
        [.root, (Path.root.key "o").key "l", .root, (Path.root.key "o").key "l"] ∧
      s'.publisher.streams.size = 1 ∧ s'.publisher.records.all Record.atRoot = true := by
  have hrun : ((sharedStream.results 10).run sharedStream.stage).bind (fun out => out.1.map fun results =>
      ((results.2.flatMap SubsequentResult.completed).map CompletedEntry.path, out.2.publisher.streams.size,
        out.2.publisher.records.all Record.atRoot)) =
      some ([.root, (Path.root.key "o").key "l", .root, (Path.root.key "o").key "l"], 1, true) := by
    decide +kernel
  obtain ⟨⟨out?, s'⟩, hrun', hsome⟩ := Option.bind_eq_some_iff.1 hrun
  obtain ⟨⟨initial, results⟩, rfl, heq⟩ := Option.map_eq_some_iff.1 hsome
  simp only [Prod.mk.injEq] at heq
  exact ⟨initial, results, s', hrun', heq⟩

private theorem completions_sharedStream : ∃ initial s₀ results s' looks s, sharedStream.Answered initial s₀ ∧
    PullsAll sharedStream s₀ results s' ∧ Course sharedStream s₀ looks s ∧ resultsOf looks = results ∧
    ¬ (completions looks).Nodup ∧ ((handled looks ++ s.publisher.pending).Nodup ↔ (handled looks).Nodup) := by
  obtain ⟨initial, results, s', hrun, hpaths, hstreams, hroot⟩ := results_sharedStream
  obtain ⟨s₀, hanswered, hall⟩ := ExecutionContext.pullsAll_of_results hrun
  obtain ⟨hs₀, hdone, -, hpending⟩ := hanswered.sound
  obtain ⟨looks, s, hcourse, rfl, hstands⟩ := hall.pulls.course hs₀ hdone hpending
  have hend := hall.outputDone hs₀ hdone hpending
  refine ⟨initial, s₀, _, s', looks, s, hanswered, hall, hcourse, rfl, ?_, hstands.nodup_iff hcourse hs₀ hend⟩
  have hover : s.Over s' := by
    cases hstands with
    | going _ hopen => exact absurd hend (by simp [hopen])
    | last hover => exact hover
    | stalled hover => exact hover
  -- whatever is completed at the list is the one stream there is
  have hlist : ∀ done, s.publisher.pathOf done = some ((Path.root.key "o").key "l") → done = .stream ⟨0⟩ := by
    intro done hpath
    cases done with
    | fragment id =>
      unfold Publisher.pathOf at hpath
      dsimp only at hpath
      split at hpath
      · rename_i r hr
        unfold Publisher.record? at hr
        rw [← hover.records] at hr
        obtain ⟨hlt, hget⟩ := Array.getElem?_eq_some_iff.1 hr
        have hat := Array.all_eq_true.1 hroot id.index hlt
        rw [hget, Record.atRoot, Option.some.inj hpath] at hat
        exact absurd hat (by decide)
      · exact absurd hpath (by simp)
    | stream id =>
      obtain ⟨st, hst, -⟩ := Option.map_eq_some_iff.1 hpath
      unfold Publisher.stream? at hst
      rw [← hover.streams] at hst
      have hlt := (Array.getElem?_eq_some_iff.1 hst).1
      rw [hstreams] at hlt
      obtain ⟨index⟩ := id
      obtain rfl : index = 0 := Nat.lt_one_iff.1 hlt
      rfl
  have hmap := hcourse.paths_completions hs₀
  rw [hpaths] at hmap
  obtain ⟨a, as, heq, -, hmap⟩ := List.map_eq_cons_iff.1 hmap
  obtain ⟨b, bs, rfl, hb, hmap⟩ := List.map_eq_cons_iff.1 hmap
  obtain ⟨d, ds, rfl, -, hmap⟩ := List.map_eq_cons_iff.1 hmap
  obtain ⟨e, es, rfl, he, -⟩ := List.map_eq_cons_iff.1 hmap
  obtain rfl := hlist b hb
  obtain rfl := hlist e he
  rw [heq]
  simp

/-- A record of `sharedStream` is handled twice in a response that comes to its end, and its stream is completed with
both. -/
theorem items_handled_twice : ∃ initial s₀ results s' looks s, sharedStream.Answered initial s₀ ∧
    PullsAll sharedStream s₀ results s' ∧ Course sharedStream s₀ looks s ∧ resultsOf looks = results ∧
    ¬ (handled looks).Nodup ∧ ¬ (completions looks).Nodup := by
  obtain ⟨initial, s₀, results, s', looks, s, hanswered, hall, hcourse, hresults, htwice, hiff⟩ :=
    completions_sharedStream
  refine ⟨initial, s₀, results, s', looks, s, hanswered, hall, hcourse, hresults, fun hnodup => htwice ?_, htwice⟩
  exact hcourse.nodup_completions hanswered.begun (hiff.2 hnodup)

/-- A record of `sharedStream` is overtaken. -/
theorem overtaken_items : ∃ initial s₀ results s' looks s, sharedStream.Answered initial s₀ ∧
    Pulls sharedStream s₀ results s' ∧ Course sharedStream s₀ looks s ∧ resultsOf looks = results ∧
    Overtaken looks := by
  obtain ⟨initial, s₀, results, s', looks, s, hanswered, hall, hcourse, hresults, htwice, -⟩ := completions_sharedStream
  obtain ⟨hevery, -⟩ := Pulls.nodup_handled_iff hanswered hall.pulls
  refine ⟨initial, s₀, results, s', looks, s, hanswered, hall.pulls, hcourse, hresults, ?_⟩
  by_contra hnot
  exact htwice ((hevery looks s hcourse).2 hnot)

end GraphQL
