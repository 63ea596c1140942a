import GraphQL.Proofs.Execution.Pulls
import GraphQL.Proofs.Execution.StreamOrder

/-!
# How often a record is handled

With every look for a result, the released records are handled: their children become pending, and they are not pending
any more unless one of them becomes pending by another one.  A record is handled twice exactly if it is *overtaken*: it
is a child of two fragments that share a set of fields, and it was handled already, perhaps in the same look, when the
second one of them is (`Course.nodup_iff_not_overtaken`).
-/

namespace GraphQL

open Execution Stage

/-- The records that are handled with the looks, in their order. -/
def handled (looks : List (Publisher Task)) : List RecordId := looks.flatMap Publisher.released

/-- A record becomes pending with the delivery of one fragment and is handled later on, but no later than another
fragment that shares a set of fields with the first one, with which it becomes pending again. -/
def Overtaken (looks : List (Publisher Task)) : Prop :=
  ∃ (i j k : Nat) (p q u : Publisher Task) (first second set id : RecordId), i < j ∧ j ≤ k ∧
    looks[i]? = some p ∧ first ∈ p.released ∧ p.Follows first id ∧
    looks[j]? = some q ∧ id ∈ q.released ∧
    looks[k]? = some u ∧ second ∈ u.released ∧ u.Follows second id ∧
    first ≠ second ∧ u.BelongsTo set first ∧ u.BelongsTo set second

/-- With a look, a record becomes pending that is handled by then. -/
private def Republishes (before : List (Publisher Task)) (p : Publisher Task) : Prop :=
  ∃ id ∈ handled (before ++ [p]), ∃ parent ∈ p.released, p.Follows parent id

/-- Some look makes a record pending again. -/
private def Republished (looks : List (Publisher Task)) : Prop :=
  ∃ before p after, looks = before ++ p :: after ∧ Republishes before p

theorem handled_concat (looks : List (Publisher Task)) (p : Publisher Task) :
    handled (looks ++ [p]) = handled looks ++ p.released := by
  simp [handled]

theorem mem_handled {looks : List (Publisher Task)} {id : RecordId} :
    id ∈ handled looks ↔ ∃ p ∈ looks, id ∈ p.released := List.mem_flatMap

private theorem republished_concat (looks : List (Publisher Task)) (p : Publisher Task) :
    Republished (looks ++ [p]) ↔ Republished looks ∨ Republishes looks p := by
  constructor
  · rintro ⟨before, q, after, heq, hq⟩
    rcases List.eq_nil_or_concat after with rfl | ⟨after', r, rfl⟩
    · obtain ⟨rfl, rfl⟩ : looks = before ∧ p = q := by simpa using List.append_inj' heq rfl
      exact Or.inr hq
    · have heq' : looks ++ [p] = (before ++ q :: after') ++ [r] := by simpa using heq
      exact Or.inl ⟨before, q, after', (List.append_inj' heq' rfl).1, hq⟩
  · rintro (⟨before, q, after, rfl, hq⟩ | hq)
    · exact ⟨before, q, after ++ [p], by simp, hq⟩
    · exact ⟨looks, p, [], rfl, hq⟩

theorem Overtaken.concat {looks : List (Publisher Task)} (h : Overtaken looks) (p : Publisher Task) :
    Overtaken (looks ++ [p]) := by
  obtain ⟨i, j, k, p₁, q, u, first, second, set, id, hij, hjk, hp, hfirst, hfollows, hq, hid, hu, hrest⟩ := h
  have hmono : ∀ {n x}, looks[n]? = some x → (looks ++ [p])[n]? = some x := fun hx => by
    rw [List.getElem?_append_left (List.getElem?_eq_some_iff.1 hx).1]
    exact hx
  exact ⟨i, j, k, p₁, q, u, first, second, set, id, hij, hjk, hmono hp, hfirst, hfollows, hmono hq, hid, hmono hu,
    hrest⟩

/-! ### Where a response starts -/

/-- More is to come after an initial result: what is pending comes after the initial record. -/
structure Stage.Begun (s : ExecStage) : Prop where
  sound : Sound [] s
  ordered : s.publisher.Ordered
  initial : ∃ r, s.publisher.record? .initial = some (.initial r)
  pending : ∀ id ∈ s.publisher.pending, s.publisher.Follows .initial id

variable {c : ExecutionContext} {s₀ s : ExecStage} {looks : List (Publisher Task)}

theorem ExecutionContext.ordered_stage (c : ExecutionContext) : c.stage.publisher.Ordered := by
  have hnone : ∀ id r, c.stage.publisher.record? id = some r → r = .initial {} := by
    intro id r hr
    obtain ⟨index⟩ := id
    cases index with
    | zero => exact (Option.some.inj hr).symm
    | succ index => exact absurd hr (by simp [Publisher.record?, ExecutionContext.stage])
  have hkids : ∀ id child, child ∉ c.stage.publisher.kids id := by
    intro id child hchild
    obtain ⟨r, hr, hmem⟩ := Publisher.mem_kids.1 hchild
    rw [hnone id r hr] at hmem
    exact absurd hmem (by simp [Record.children])
  have hitems : ∀ id r, c.stage.publisher.record? id ≠ some (.items r) := fun id r hr =>
    absurd (hnone id _ hr) (by simp)
  refine ⟨fun a _ child _ ha => absurd ha (hkids a child), fun _ _ b _ _ _ id hid => absurd hid (hkids id b),
    fun a _ r _ hr => absurd hr (hitems a r), fun id r hr => absurd hr (hitems id r), ?_⟩
  rintro _ a _ ⟨r, hr, -⟩
  exact absurd hr (hitems a r)

private theorem initial_moves {hand hand' : List RecordId} {s s' : ExecStage} (m : Moves hand s hand' s')
    (h : ∃ r, s.publisher.record? .initial = some (.initial r)) :
    ∃ r, s'.publisher.record? .initial = some (.initial r) := by
  obtain ⟨r, hr⟩ := h
  obtain ⟨r', hr', hg⟩ := m.grows.records _ _ hr
  cases hg with
  | initial => exact ⟨_, hr'⟩

private theorem initial_alike {p q : Publisher Task} (ha : p.Alike q)
    (h : ∃ r, p.record? .initial = some (.initial r)) : ∃ r, q.record? .initial = some (.initial r) := by
  obtain ⟨r, hr⟩ := h
  obtain ⟨r', hr', hout⟩ := ha.record? hr
  cases r' with
  | initial r' => exact ⟨r', hr'⟩
  | _ => exact absurd hout (by simp [Record.outline])

theorem ExecutionContext.Answered.begun {initial : InitialResult} (h : c.Answered initial s) : s.Begun := by
  obtain ⟨s₁, hmoves, rfl, -⟩ := h.answers
  have hs := hmoves.sound c.sound_stage.1
  have hchildren := hs.publisher.publishChildren .initial
  have herrors := hchildren.1.takeErrors
  have halike := hchildren.2.1.trans herrors.2
  refine ⟨hs.alike herrors.1 halike, (hmoves.ordered c.sound_stage.1 c.ordered_stage).of_alike halike,
    initial_alike halike (initial_moves hmoves ⟨{}, rfl⟩), fun id hid => ?_⟩
  have hid' : id ∈ (s₁.publisher.publishChildren .initial).pending := hid
  rcases (hchildren.2.2.1 id).1 hid' with hid' | hfollows
  · rw [hmoves.retains.pending] at hid'
    exact absurd hid' (by simp [ExecutionContext.stage])
  · exact halike.follows hfollows

/-! ### On a course -/

theorem Course.ordered (h : Course c s₀ looks s) (h₀ : s₀.Begun) : s.publisher.Ordered :=
  (h.rec_moves (I := fun _ s => s.publisher.Ordered) h₀.sound h₀.ordered (fun _ _ _ hs hm ho => hm.ordered hs ho)
    fun _ _ hs ho => ho.of_alike hs.publisher.nextResult?.alike).2

private theorem Course.initial (h : Course c s₀ looks s) (h₀ : s₀.Begun) :
    ∃ r, s.publisher.record? .initial = some (.initial r) :=
  (h.rec_moves (I := fun _ s => ∃ r, s.publisher.record? .initial = some (.initial r)) h₀.sound h₀.initial
    (fun _ _ _ _ hm hi => initial_moves hm hi) fun _ _ hs hi => initial_alike hs.publisher.nextResult?.alike hi).2

/-- A record keeps its children. -/
theorem Course.kids (h : Course c s₀ looks s) (h₀ : Sound [] s₀) (id : RecordId) :
    s₀.publisher.kids id ⊆ s.publisher.kids id :=
  (h.rec_moves (I := fun _ s => s₀.publisher.kids id ⊆ s.publisher.kids id) h₀ (List.Subset.refl _)
    (fun _ _ _ _ hm hk => List.Subset.trans hk hm.grows.kids) fun _ s hs hk => by
      show _ ⊆ s.publisher.nextResult?.1.kids id
      rw [hs.publisher.nextResult?.alike.kids]
      exact hk).2

/-- What is pending follows the initial record, or a record that was handled. -/
theorem Course.pending_follows (h : Course c s₀ looks s) (h₀ : s₀.Begun) : ∀ id ∈ s.publisher.pending,
    s₀.publisher.Follows .initial id ∨ ∃ p ∈ looks, ∃ parent ∈ p.released, p.Follows parent id := by
  refine (h.rec_moves (I := fun looks s => ∀ id ∈ s.publisher.pending, s₀.publisher.Follows .initial id ∨
    ∃ p ∈ looks, ∃ parent ∈ p.released, p.Follows parent id) h₀.sound ?_ ?_ ?_).2
  · exact fun id hid => Or.inl (h₀.pending id hid)
  · intro looks s s' _ hm ih id hid
    rw [hm.retains.pending] at hid
    exact ih id hid
  · intro looks s hs ih id hid
    rcases (hs.publisher.nextResult?.pending id).1 hid with ⟨hid, -⟩ | ⟨parent, hparent, hfollows⟩
    · refine (ih id hid).imp_right fun ⟨p, hp, hrest⟩ => ⟨p, List.mem_append_left _ hp, hrest⟩
    · exact Or.inr ⟨s.publisher, List.mem_append_right _ (List.mem_singleton.2 rfl), parent, hparent, hfollows⟩

/-- A look handles what is released, and nothing is to be handled a second time if nothing is republished by it. -/
private theorem nodup_look (hs : Sound [] s) (h : (handled looks ++ s.publisher.pending).Nodup)
    (hrep : ¬ Republishes looks s.publisher) :
    (handled (looks ++ [s.publisher]) ++ s.look.publisher.pending).Nodup := by
  have hhandled := hs.publisher.nextResult?
  have hprompt := hs.publisher.prompt
  obtain ⟨hnodup, hpending, hdisjoint⟩ := List.nodup_append.1 h
  refine List.nodup_append.2 ⟨?_, hhandled.sound.prompt.nodup, ?_⟩
  · rw [handled_concat]
    refine List.nodup_append.2 ⟨hnodup, hprompt.releasedNodup, fun a ha b hb => ?_⟩
    exact hdisjoint a ha b (hprompt.released b hb)
  · rintro id hid _ hid' rfl
    rcases (hhandled.pending id).1 hid' with ⟨hmem, hnot⟩ | ⟨parent, hparent, hfollows⟩
    · rw [handled_concat, List.mem_append] at hid
      rcases hid with hid | hid
      · exact hdisjoint id hid id hmem rfl
      · exact hnot hid
    · exact hrep ⟨id, hid, parent, hparent, hfollows⟩

/-- What is handled or to be handled a second time stays so. -/
theorem not_nodup_look (hs : Sound [] s) (h : ¬ (handled looks ++ s.publisher.pending).Nodup) :
    ¬ (handled (looks ++ [s.publisher]) ++ s.look.publisher.pending).Nodup := by
  have hhandled := hs.publisher.nextResult?
  intro hnodup
  rw [handled_concat, List.append_assoc] at hnodup
  obtain ⟨hfirst, hrest, hdisjoint⟩ := List.nodup_append.1 hnodup
  refine h (List.nodup_append.2 ⟨hfirst, hs.publisher.prompt.nodup, ?_⟩)
  rintro id hid _ hid' rfl
  by_cases hreleased : id ∈ s.publisher.released
  · exact hdisjoint id hid id (List.mem_append_left _ hreleased) rfl
  · exact hdisjoint id hid id (List.mem_append_right _ ((hhandled.pending id).2 (Or.inl ⟨hid', hreleased⟩))) rfl

/-- A record that is republished is to be handled a second time. -/
private theorem not_nodup_of_republishes (hs : Sound [] s) (h : Republishes looks s.publisher) :
    ¬ (handled (looks ++ [s.publisher]) ++ s.look.publisher.pending).Nodup := by
  obtain ⟨id, hid, parent, hparent, hfollows⟩ := h
  intro hnodup
  obtain ⟨-, -, hdisjoint⟩ := List.nodup_append.1 hnodup
  exact hdisjoint id hid id ((hs.publisher.nextResult?.pending id).2 (Or.inr ⟨parent, hparent, hfollows⟩)) rfl

private theorem Course.nodup_iff_not_republished (h₀ : Sound [] s₀) (h : Course c s₀ looks s) :
    (handled looks ++ s.publisher.pending).Nodup ↔ ¬ Republished looks := by
  refine (h.rec_moves (I := fun looks s => (handled looks ++ s.publisher.pending).Nodup ↔ ¬ Republished looks)
    h₀ ?_ ?_ ?_).2
  · refine ⟨fun _ ⟨_, _, _, heq, _⟩ => absurd heq (by simp), fun _ => ?_⟩
    exact h₀.publisher.prompt.nodup
  · intro looks s s' hs hm ih
    rw [hm.retains.pending]
    exact ih
  · intro looks s hs ih
    rw [republished_concat, not_or, ← ih]
    refine ⟨fun hnodup => ⟨?_, fun hrep => not_nodup_of_republishes hs hrep hnodup⟩,
      fun ⟨hnodup, hrep⟩ => nodup_look hs hnodup hrep⟩
    by_contra hnot
    exact not_nodup_look hs hnot hnodup

/-- The first record that is republished is overtaken: it became pending by another parent before. -/
private theorem Course.overtaken_of_republishes (h : Course c s₀ looks s) (h₀ : s₀.Begun)
    (hnodup : (handled looks ++ s.publisher.pending).Nodup) (hrep : Republishes looks s.publisher) :
    Overtaken (looks ++ [s.publisher]) := by
  obtain ⟨id, hid, second, hsecond, hfollows⟩ := hrep
  have hs := h.sound h₀.sound
  have ho := h.ordered h₀
  have hkid : id ∈ s.publisher.kids second := by
    obtain ⟨r, hr, hmem, -⟩ := hfollows
    exact Publisher.mem_kids.2 ⟨r, hr, hmem⟩
  have hlt : id.index < s.publisher.records.size := by
    obtain ⟨r, hr, -⟩ := (hs.publisher.linked.isDeliverable_of_follows hfollows).2
    exact Publisher.lt_size_of_record? hr
  obtain ⟨q, hq, hid⟩ := mem_handled.1 hid
  obtain ⟨before, after, heq⟩ := List.append_of_mem hq
  have hcourse : Course c s₀ ((looks ++ [s.publisher]) ++ []) s.look := by rw [List.append_nil]; exact h.look
  rw [List.append_nil, heq] at hcourse
  obtain ⟨s₁, h₁, rfl, -⟩ := hcourse.split
  have hs₁ := h₁.sound h₀.sound
  have hlength : before.length ≤ looks.length := by
    have hlen := congrArg List.length heq
    simp only [List.length_append, List.length_cons, List.length_nil] at hlen
    omega
  rcases h₁.pending_follows h₀ id (hs₁.publisher.prompt.released id hid) with hroot | ⟨p, hp, first, hfirst, hpfollows⟩
  · -- the initial record is no fragment
    obtain ⟨r₀, hr₀, hmem₀, -⟩ := hroot
    have hkid₀ := h.kids h₀.sound .initial (Publisher.mem_kids.2 ⟨r₀, hr₀, hmem₀⟩)
    obtain ⟨r, hr⟩ := h.initial h₀
    have hne : (.initial : RecordId) ≠ second := by
      rintro rfl
      obtain ⟨r', hr', hd⟩ := hs.publisher.prompt.deliverable _ (hs.publisher.prompt.released _ hsecond)
      rw [hr] at hr'
      cases hr'
      exact hd.elim
    obtain ⟨set, ⟨fs, hfs, hroot⟩, -⟩ := ho.shared .initial second id hlt hkid₀ hkid hne
    obtain ⟨fr, hfr⟩ := (hs.publisher.linked.fragments set fs hfs _ hroot).2
    rw [hr] at hfr
    exact absurd hfr (by simp)
  · obtain ⟨i, hi⟩ := List.mem_iff_getElem?.1 hp
    have hilt : i < before.length := (List.getElem?_eq_some_iff.1 hi).1
    have hplooks : looks[i]? = some p := by
      have hall : (looks ++ [s.publisher])[i]? = some p := by
        rw [heq, List.getElem?_append_left hilt]
        exact hi
      rwa [List.getElem?_append_left (by omega)] at hall
    have hpmem : p ∈ looks := List.mem_of_getElem? hplooks
    have hne : first ≠ second := by
      rintro rfl
      exact (List.nodup_append.1 hnodup).2.2 first (mem_handled.2 ⟨p, hpmem, hfirst⟩) first
        (hs.publisher.prompt.released _ hsecond) rfl
    have hkid₁ : id ∈ s.publisher.kids first := by
      obtain ⟨as, bs, hsplit⟩ := List.append_of_mem hpmem
      rw [hsplit] at h
      obtain ⟨s₂, h₂, rfl, h₃⟩ := h.split
      obtain ⟨r, hr, hmem, -⟩ := hpfollows
      have hs₂ := h₂.sound h₀.sound
      refine h₃.kids hs₂.look first ?_
      show id ∈ s₂.publisher.nextResult?.1.kids first
      rw [hs₂.publisher.nextResult?.alike.kids]
      exact Publisher.mem_kids.2 ⟨r, hr, hmem⟩
    obtain ⟨set, hset, hset'⟩ := ho.shared first second id hlt hkid₁ hkid hne
    refine ⟨i, before.length, looks.length, p, s₁.publisher, s.publisher, first, second, set, id, hilt, hlength, ?_,
      hfirst, hpfollows, ?_, hid, ?_, hsecond, hfollows, hne, hset, hset'⟩
    · rw [List.getElem?_append_left (by omega)]
      exact hplooks
    · rw [heq, List.getElem?_append_right (Nat.le_refl _), Nat.sub_self]
      rfl
    · rw [List.getElem?_append_right (Nat.le_refl _), Nat.sub_self]
      rfl

private theorem Overtaken.republished (h : Overtaken looks) : Republished looks := by
  obtain ⟨i, j, k, p, q, u, first, second, set, id, -, hjk, -, -, -, hq, hid, hu, hsecond, hfollows, -⟩ := h
  obtain ⟨hk, rfl⟩ := List.getElem?_eq_some_iff.1 hu
  refine ⟨looks.take k, looks[k], looks.drop (k + 1), ?_, id, ?_, second, hsecond, hfollows⟩
  · rw [← List.drop_eq_getElem_cons hk, List.take_append_drop]
  · rw [List.take_append_getElem hk]
    refine mem_handled.2 ⟨q, List.mem_of_getElem? (i := j) ?_, hid⟩
    rw [List.getElem?_take, if_pos (by omega)]
    exact hq

private theorem Course.overtaken_of_republished (h : Course c s₀ looks s) (h₀ : s₀.Begun) :
    Republished looks → Overtaken looks := by
  induction h with
  | start => exact fun ⟨_, _, _, heq, _⟩ => absurd heq (by simp)
  | inbox _ ih => exact ih
  | work _ _ _ ih => exact ih
  | advance _ _ ih => exact ih
  | @look looks s h ih =>
    intro hrep
    by_cases hbefore : Republished looks
    · exact (ih hbefore).concat _
    · have hnodup := (h.nodup_iff_not_republished h₀.sound).2 hbefore
      exact h.overtaken_of_republishes h₀ hnodup (((republished_concat looks _).1 hrep).resolve_left hbefore)

/-- At any time after the answer, nothing is handled or to be handled a second time exactly if no record is
overtaken. -/
theorem Course.nodup_iff_not_overtaken (h : Course c s₀ looks s) (h₀ : s₀.Begun) :
    (handled looks ++ s.publisher.pending).Nodup ↔ ¬ Overtaken looks := by
  rw [h.nodup_iff_not_republished h₀.sound]
  exact not_congr ⟨h.overtaken_of_republished h₀, Overtaken.republished⟩

end GraphQL
