import GraphQL.Proofs.Delivery.Assembly
import GraphQL.Proofs.Execution.Isolation

/-!
# What is delivered after the data around it

Every fragment and every record of items is reported for one other record: for the record whose data surrounds it, which
can be a set of fields and is then represented by its fragments, or for the fragment around it
(`History.exists_reportedFor`).  It is delivered after that record, or after one of these fragments.  The data of a set of
fields is sent with the first of its fragments that is delivered without errors, so what is nested in it comes after it
unless all fragments that were delivered by then have failed (`PullsAll.nested_after_set`), as in `unsentSurroundings`.
-/

namespace GraphQL

open Execution Stage

namespace Publisher

variable {p q : Publisher Task} {home k : RecordId}

/-- The record was reported for another one: its parents are that record, or the fragments of that set of fields. -/
def ReportedFor (p : Publisher Task) (home k : RecordId) : Prop := ∀ f, k ∈ p.kids f ↔ f ∈ p.attachedTo home

theorem Grows.attachedTo {n : Nat} (h : Grows n p q) (hlt : home.index < p.records.size) :
    q.attachedTo home = p.attachedTo home := by
  obtain ⟨r, hr⟩ := exists_record? hlt
  obtain ⟨r', hr', hg⟩ := h.records home r hr
  unfold Publisher.attachedTo
  rw [hr, hr']
  cases hg with
  | fieldSet _ hfragments => exact hfragments
  | _ => rfl

/-- What a record was reported for does not change. -/
theorem ReportedFor.grows (h : p.ReportedFor home k) (hg : Grows p.records.size p q) (hlinked : q.Linked)
    (hhome : home.index < p.records.size) (hk : k.index < p.records.size) : q.ReportedFor home k := by
  intro f
  rw [hg.attachedTo hhome, ← h f]
  refine ⟨fun hkid => ?_, fun hkid => hg.kids hkid⟩
  -- a parent comes before its children, so it is an old record
  obtain ⟨r, hr, hmem⟩ := mem_kids.1 hkid
  have hlt := (hlinked.children f r hr k hmem).1
  exact hg.old_kids hkid (Nat.lt_trans hlt hk) hk

theorem Alike.attachedTo (h : p.Alike q) (home : RecordId) : q.attachedTo home = p.attachedTo home := by
  have hrecord := h.records home
  unfold Publisher.attachedTo
  cases hr : p.record? home with
  | none =>
    rw [hr, Option.map_none, Option.map_eq_none_iff] at hrecord
    rw [hrecord]
  | some r =>
    obtain ⟨r', hr', hout⟩ := h.record? hr
    rw [hr']
    cases r <;> cases r' <;> simp_all [Record.outline]

theorem ReportedFor.of_alike (h : p.ReportedFor home k) (ha : p.Alike q) : q.ReportedFor home k := by
  intro f
  rw [ha.kids, ha.attachedTo]
  exact h f

theorem Grows.isDeliverable_old {n : Nat} (h : Grows n p q) (hk : q.IsDeliverable k) (hlt : k.index < p.records.size) :
    p.IsDeliverable k := by
  obtain ⟨r', hr', hdeliverable⟩ := hk
  obtain ⟨r, hr, hg⟩ := h.old hr' hlt
  refine ⟨r, hr, ?_⟩
  cases hg with
  | initial => exact hdeliverable
  | fragment => trivial
  | fieldSet => exact hdeliverable
  | items => trivial

/-- Each record that can be delivered was reported for one that was there before it. -/
def Reported (p : Publisher Task) : Prop :=
  ∀ k, p.IsDeliverable k → ∃ home, home.index < k.index ∧ p.ReportedFor home k

theorem Reported.of_alike (h : p.Reported) (ha : p.Alike q) : q.Reported := by
  rintro k ⟨r', hr', hdeliverable⟩
  obtain ⟨r, hr, hout⟩ := ha.symm.record? hr'
  have hold : r.IsDeliverable := by
    cases r <;> cases r' <;> first | exact hdeliverable | exact absurd hout (by simp [Record.outline])
  obtain ⟨home, hhome, hreported⟩ := h k ⟨r, hr, hold⟩
  exact ⟨home, hhome, hreported.of_alike ha⟩

/-- Records that can be delivered stay reported if all others are so. -/
theorem Reported.grows (h : p.Reported) (hg : Grows p.records.size p q) (hlinked : q.Linked)
    (hnew : ∀ k, q.IsDeliverable k → p.records.size ≤ k.index → ∃ home, home.index < k.index ∧ q.ReportedFor home k) :
    q.Reported := by
  intro k hk
  rcases Nat.lt_or_ge k.index p.records.size with hlt | hge
  · obtain ⟨home, hhome, hreported⟩ := h k (hg.isDeliverable_old hk hlt)
    exact ⟨home, hhome, hreported.grows hg hlinked (Nat.lt_trans hhome hlt) hlt⟩
  · exact hnew k hk hge

/-- Records that were there earlier represent the same ones. -/
theorem Persists.attachedTo (h : p.Persists q) (hlt : home.index < p.records.size) :
    q.attachedTo home = p.attachedTo home := by
  obtain ⟨r, hr⟩ := exists_record? hlt
  obtain ⟨r', hr', hg⟩ := h home r hr
  unfold Publisher.attachedTo
  rw [hr, hr']
  cases r with
  | fieldSet r =>
    cases r' with
    | fieldSet r' =>
      cases hg with
      | fieldSet _ hfragments => exact hfragments
    | _ => exact absurd hg (by rintro ⟨⟩)
  | _ =>
    cases r' with
    | fieldSet r' => exact absurd hg (by rintro ⟨⟩)
    | _ => rfl

/-- Sets of fields that were there earlier were sets of fields. -/
theorem Persists.isFieldSet_old (h : p.Persists q) (hset : q.IsFieldSet home) (hlt : home.index < p.records.size) :
    p.IsFieldSet home := by
  obtain ⟨r', hr'⟩ := hset
  obtain ⟨r, hr⟩ := exists_record? hlt
  obtain ⟨u, hu, hg⟩ := h home r hr
  obtain rfl : Record.fieldSet r' = u := Option.some.inj (hr'.symm.trans hu)
  cases r with
  | fieldSet r => exact ⟨r, hr⟩
  | _ => exact absurd hg (by rintro ⟨⟩)

theorem mem_attachedTo_iff (hset : p.IsFieldSet home) {f : RecordId} : f ∈ p.attachedTo home ↔ p.BelongsTo home f := by
  obtain ⟨r, hr⟩ := hset
  unfold Publisher.attachedTo BelongsTo
  rw [hr]
  simp

theorem attachedTo_of_not (hset : ¬ p.IsFieldSet home) : p.attachedTo home = [home] := by
  unfold Publisher.attachedTo
  split
  · rename_i r hr
    exact absurd ⟨r, hr⟩ hset
  · rfl

end Publisher

variable {c : ExecutionContext} {s₀ s s' : ExecStage} {is before after : List Incident} {hand hand' : List RecordId}
  {p : Publisher Task} {k home : RecordId}

open Publisher in
/-- Every move keeps the records reported. -/
theorem Move.reported (m : Move hand s hand' s') (h : Sound hand s) (hr : s.publisher.Reported) :
    s'.publisher.Reported := by
  have hlinked := (m.sound h).publisher.linked
  have hl := h.publisher.linked
  -- records that are there are changed
  have hsame : Grows s.publisher.records.size s.publisher s'.publisher →
      s'.publisher.records.size = s.publisher.records.size → s'.publisher.Reported := by
    refine fun hg hsize => hr.grows hg hlinked fun k hk hge => ?_
    obtain ⟨r, hr, -⟩ := hk
    have hlt := lt_size_of_record? hr
    rw [hsize] at hlt
    exact absurd hlt (Nat.not_lt.2 hge)
  -- a record is added
  have hadd : ∀ {record : Record}, Grows s.publisher.records.size s.publisher s'.publisher →
      s.publisher.Adds s'.publisher record → (record.IsDeliverable → ∃ home, home.index < s.publisher.records.size ∧
        s'.publisher.ReportedFor home ⟨s.publisher.records.size⟩) → s'.publisher.Reported := by
    refine fun {record} hg ha hnew => hr.grows hg hlinked fun k hk hge => ?_
    obtain ⟨r, hr, hdeliverable⟩ := hk
    have hlt := lt_size_of_record? hr
    rw [ha.size] at hlt
    obtain rfl : k = ⟨s.publisher.records.size⟩ :=
      RecordId.index_inj.1 (show k.index = s.publisher.records.size by omega)
    rw [ha.new] at hr
    cases hr
    exact hnew hdeliverable
  have hattached : ∀ {parent : RecordId} (record : Record), parent.index < s.publisher.records.size →
      record.children = [] → s'.publisher =
        ((s.publisher.push record).1.addChild parent ⟨s.publisher.records.size⟩) →
      Grows s.publisher.records.size s.publisher s'.publisher →
      ∃ home, home.index < s.publisher.records.size ∧ s'.publisher.ReportedFor home ⟨s.publisher.records.size⟩ := by
    intro parent record hparent hchildren heq hg
    refine ⟨parent, hparent, fun f => ?_⟩
    rw [hg.attachedTo hparent, heq]
    exact mem_kids_push_addChild hl hparent record hchildren f
  have hclose : ∀ (t : ExecStage) (f : Publisher Task → Publisher Task × List StreamId),
      Grows s.publisher.records.size t.publisher (f t.publisher).1 →
      Grows s.publisher.records.size t.publisher (t.publishAndClose f).publisher :=
    fun t f hg => hg.trans ((same_publishAndClose t f).grows _)
  have hsizes : ∀ (t : ExecStage) (f : Publisher Task → Publisher Task × List StreamId),
      (f t.publisher).1.records.size = t.publisher.records.size →
      (t.publishAndClose f).publisher.records.size = t.publisher.records.size :=
    fun t f hsize => (congrArg Array.size (same_publishAndClose t f).records).trans hsize
  cases m with
  | reorder _ hs => exact hsame (hs.grows _) (congrArg Array.size hs.records)
  | take hs => exact hsame (hs.grows _) (congrArg Array.size hs.records)
  | rest _ hs => exact hsame (hs.grows _) (congrArg Array.size hs.records)
  | @fragment _ _ path label parent hparent =>
    have hg := Grows.addFragment s.publisher path label parent
    exact hadd hg (Adds.addFragment hl path label hparent) fun _ => hattached _ hparent rfl rfl hg
  | fieldSet path hfragments =>
    exact hadd (Grows.addFieldSet _ path _) (Adds.addFieldSet path hfragments) False.elim
  | stream path label hook => exact hsame (Grows.addStream _ path label hook) rfl
  | @items _ _ stream path parent hparent =>
    have hg := Grows.addItems s.publisher stream path parent
    exact hadd hg (Adds.addItems hl _ _ hparent) fun _ => hattached _ hparent rfl rfl hg
  | error e => exact hsame (Grows.addError _ _ e) (Updates.addError (D := fun _ => False) (F := fun _ => False) _ _ e).size
  | filter path id =>
    exact hsame (hclose s _ (Grows.filter _ path id))
      (hsizes s _ (Updates.filter (D := fun _ => False) (F := fun _ => False) _ path id).size)
  | final => exact hsame (Grows.setFinal _ _) (Updates.setFinal (D := fun _ => False) (F := fun _ => True) _ trivial).size
  | completeSet data =>
    exact hsame (Grows.completeFieldSet _ _ data)
      (Updates.completeFieldSet (D := fun _ => False) (F := fun _ => False) _ _ data).size
  | failSet e =>
    exact hsame (Grows.failFieldSet _ _ e) (Updates.failFieldSet (D := fun _ => False) (F := fun _ => False) _ _ e).size
  | completeItems items =>
    exact hsame (Grows.completeItems _ _ items)
      (Updates.completeItems (D := fun _ => True) (F := fun _ => False) _ items trivial).size
  | @failItems _ _ listPath id e =>
    refine hsame ((hclose s (fun p => p.filter listPath id) (Grows.filter _ listPath id)).trans
      (hclose _ (fun p => p.failItems id e) (Grows.failItems _ id e))) ?_
    refine (hsizes _ (fun p => p.failItems id e) ?_).trans (hsizes s (fun p => p.filter listPath id) ?_)
    · exact (Updates.failItems (D := fun _ => True) (F := fun _ => True) _ e trivial trivial).size
    · exact (Updates.filter (D := fun _ => False) (F := fun _ => False) _ listPath id).size
  | endItems =>
    exact hsame ((Grows.setEnd _ _).trans (Grows.completeItems _ _ _))
      ((Updates.setEnd (D := fun _ => True) (F := fun _ => True) _ trivial).trans
        (Updates.completeItems _ [] trivial)).size
  | retireItems =>
    exact hsame (Grows.retireItems _ _) (Updates.retireItems (D := fun _ => True) (F := fun _ => False) _ trivial).size

namespace History

/-- Each record that can be delivered was reported for one that was there before it. -/
theorem exists_reportedFor (h : History c is hand s) : s.publisher.Reported := by
  induction h with
  | start =>
    rintro ⟨index⟩ ⟨r, hr, hdeliverable⟩
    cases index with
    | zero =>
      cases hr
      exact hdeliverable.elim
    | succ index => exact absurd hr (by simp [Publisher.record?, ExecutionContext.stage])
  | move h m _ ih => exact m.reported h.sound ih
  | null h path id ih => exact (Move.filter path id).reported h.sound ih
  | failItems h e hid ih => exact (Move.failItems e hid).reported h.sound ih
  | failSet h e hid ih => exact (Move.failSet e hid).reported h.sound ih
  | answer h ih =>
    have hchildren := h.sound.publisher.publishChildren .initial
    exact ih.of_alike (hchildren.2.1.trans hchildren.1.takeErrors.2)
  | look h ih => exact ih.of_alike h.sound.publisher.nextResult?.alike

/-- The initial record is there from the start. -/
theorem exists_initial (h : History c is hand s) : ∃ r, s.publisher.record? .initial = some (.initial r) := by
  have hkeep : ∀ {p q : Publisher Task}, p.Persists q → (∃ r, p.record? .initial = some (.initial r)) →
      ∃ r, q.record? .initial = some (.initial r) := by
    rintro p q hpersists ⟨r, hr⟩
    obtain ⟨r', hr', hg⟩ := hpersists _ _ hr
    cases r' with
    | initial r' => exact ⟨r', hr'⟩
    | _ => exact absurd hg (by rintro ⟨⟩)
  induction h with
  | start => exact ⟨_, rfl⟩
  | move _ m _ ih => exact hkeep (.of_grows m.grows) ih
  | null _ path id ih => exact hkeep (.of_grows (@Move.filter [] _ path id).grows) ih
  | failItems _ e hid ih => exact hkeep (.of_grows (@Move.failItems [] _ _ _ e hid).grows) ih
  | failSet _ e hid ih => exact hkeep (.of_grows (@Move.failSet [] _ _ e hid).grows) ih
  | answer h ih =>
    have hchildren := h.sound.publisher.publishChildren .initial
    exact hkeep (.of_alike (hchildren.2.1.trans hchildren.1.takeErrors.2)) ih
  | look h ih => exact hkeep (.of_alike h.sound.publisher.nextResult?.alike) ih

end History

/-- What is delivered comes after something that its home is represented by. -/
theorem History.delivered_after (h : History c (before ++ .looked p :: after) hand s) (hk : k ∈ p.released)
    (hhome : p.ReportedFor home k) (hlt : home.index < k.index) :
    ∃ i ∈ before, ∃ f ∈ i.delivered, f ∈ i.publisher.attachedTo home ∧ f ∈ p.attachedTo home := by
  obtain ⟨⟨hand', s', h', rfl, -⟩, -⟩ := h.split
  have hpending := h'.sound.publisher.prompt.released k hk
  obtain ⟨i, hi, f, hf, hfollows⟩ := h'.reached_iff.1 (.inl hpending)
  obtain ⟨hkid, -⟩ := Publisher.follows_iff.1 hfollows
  obtain ⟨b, a, rfl⟩ := List.append_of_mem hi
  obtain ⟨⟨_, s₁, h₁, hp, hpersists⟩, -⟩ := h'.split
  rw [hp] at hpersists
  have hkid' := hpersists.kids f hkid
  -- the home was there before its record, hence already at the incident
  have hthere : home.index < i.publisher.records.size := by
    obtain ⟨r, hr, hmem⟩ := Publisher.mem_kids.1 hkid
    rw [← hp] at hr ⊢
    obtain ⟨-, r', hr', -⟩ := h₁.sound.publisher.linked.children f r hr k hmem
    exact Nat.lt_trans hlt (Publisher.lt_size_of_record? hr')
  refine ⟨i, hi, f, hf, ?_, (hhome f).1 hkid'⟩
  rw [← hpersists.attachedTo hthere]
  exact (hhome f).1 hkid'

/-- The data of a set of fields was sent exactly if a fragment of the set was delivered without errors. -/
theorem History.sent_iff_delivered (h : History c is hand s) (hset : s.publisher.IsFieldSet home) :
    (∃ q, .looked q ∈ is ∧ home ∈ q.sent.map Prod.fst) ↔
      ∃ q f, .looked q ∈ is ∧ f ∈ q.released ∧ q.BelongsTo home f ∧ (q.standing f).errors = [] := by
  rw [← h.sent_iff hset]
  refine (h.told home).sent.trans ?_
  constructor
  · rintro ⟨n, hn, hsends⟩
    cases n with
    | looked q =>
      obtain ⟨f, hf, hbelongs, herrors⟩ := hsends
      exact ⟨q, f, hn, hf, hbelongs, herrors⟩
    | _ => exact hsends.elim
  · rintro ⟨q, f, hq, hf, hbelongs, herrors⟩
    exact ⟨_, hq, f, hf, hbelongs, herrors⟩

/-- What is delivered comes after the record that it was reported for.  If that is a set of fields, it comes after one of
its fragments, and the data of the set was sent by then exactly if one of those that were delivered had no errors. -/
theorem PullsAll.nested_after_set {initial : InitialResult} {results : List SubsequentResult}
    (h₀ : c.Answered initial s₀) (h : PullsAll c s₀ results s') :
    ∃ is s, History c is [] s ∧ resultsOf (looksOf is) = results ∧ s.Over s' ∧
      (∀ q result, .looked q ∈ is → q.nextResult?.2 = some result → result.incremental = q.sent.map q.entryOf) ∧
      ∀ before p after k, is = before ++ .looked p :: after → k ∈ p.released →
        ∃ home, home.index < k.index ∧ p.ReportedFor home k ∧
          (¬ p.IsFieldSet home → ∃ i ∈ before, home ∈ i.delivered) ∧
          (p.IsFieldSet home → (∃ q f, .looked q ∈ before ∧ f ∈ q.released ∧ q.BelongsTo home f) ∧
            ((∃ q, .looked q ∈ before ∧ home ∈ q.sent.map Prod.fst) ↔
              ∃ q f, .looked q ∈ before ∧ f ∈ q.released ∧ q.BelongsTo home f ∧ (q.standing f).errors = [])) := by
  obtain ⟨is, s, his, hresults, hover, -⟩ := h.history h₀
  refine ⟨is, s, his, hresults, hover, fun q result hq hresult => his.incremental hq hresult, ?_⟩
  rintro before p after k rfl hk
  obtain ⟨⟨hand', s₁, h₁, hp, -⟩, -⟩ := his.split
  have hp' : s₁.publisher = p := hp
  subst hp'
  have hdeliverable := h₁.sound.publisher.prompt.deliverable k (h₁.sound.publisher.prompt.released k hk)
  obtain ⟨home, hlt, hhome⟩ := h₁.exists_reportedFor k hdeliverable
  obtain ⟨i, hi, f, hf, hattached, hattached'⟩ := his.delivered_after hk hhome hlt
  refine ⟨home, hlt, hhome, fun hset => ?_, fun hset => ⟨?_, h₁.sent_iff_delivered hset⟩⟩
  · rw [Publisher.attachedTo_of_not hset, List.mem_singleton] at hattached'
    rw [hattached'] at hf
    exact ⟨i, hi, hf⟩
  · have hbelongs := (Publisher.mem_attachedTo_iff hset).1 hattached'
    cases i with
    | looked q =>
      refine ⟨q, f, hi, hf, ?_⟩
      obtain ⟨b, a, rfl⟩ := List.append_of_mem hi
      obtain ⟨⟨_, s₂, h₂, hq, hpersists⟩, -⟩ := h₁.split
      have hq' : s₂.publisher = q := hq
      subst hq'
      refine (Publisher.mem_attachedTo_iff ?_).1 hattached
      -- a record that is no set of fields would represent itself, and it is no fragment
      by_contra hnot
      have hself : f = home := List.mem_singleton.1 (Publisher.attachedTo_of_not hnot ▸ hattached)
      subst hself
      obtain ⟨u, hu⟩ := hset
      obtain ⟨u', hu', hmem⟩ := hbelongs
      have hirreflexive := (h₁.sound.publisher.linked.fragments f u' hu' f hmem).1
      exact absurd hirreflexive (Nat.lt_irrefl _)
    | answered q =>
      -- the initial record is no fragment
      have hinitial : f = .initial := List.mem_singleton.1 hf
      obtain ⟨u, hu, hmem⟩ := hbelongs
      obtain ⟨-, r, hr⟩ := h₁.sound.publisher.linked.fragments home u hu f hmem
      obtain ⟨r₀, hr₀⟩ := h₁.exists_initial
      rw [hinitial, hr₀] at hr
      exact absurd hr (by simp)
    | _ => exact absurd hf (by simp [Incident.delivered])

/-- A fragment with two sets of fields.  The set of `p` fails, and the fragment with it; the set of `q`, which streams a
list, is completed, and never sent. -/
def unsentSurroundings : ExecutionContext :=
  .ofSelections
    [.ofFields "Query" [("p", .named "P"), ("q", .named "Q")],
      .ofFields "P" [("a", .named "String"), ("must", .nonNull (.named "String"))],
      .ofFields "Q" [("a", .named "String"), ("r", .named "R")],
      .ofFields "R" [("l", .list (.named "String"))]]
    [("P.must", { resolve := fun _ => .ok (.later none 1 (.error (.custom "no"))) })]
    (.object [("p", .object [("a", .string "1")]),
      ("q", .object [("a", .string "2"), ("r", .object [("l", .array [.string "x"])])])])
    [.named "p" [.named "a"], .named "q" [.named "a"],
      .deferred [.named "p" [.named "must"], .named "q" [.named "r" [.streamed "l"]]]]

private theorem results_unsentSurroundings : ∃ initial results s',
    (unsentSurroundings.results 10).run unsentSurroundings.stage = some (some (initial, results), s') ∧
      (results.flatMap SubsequentResult.incremental, initial.data.assemble results) =
        ([.stream ⟨[.string "x"], (((Path.root.key "q").key "r").key "l").index 0, none, []⟩], none) := by
  have hrun : (((unsentSurroundings.results 10).run unsentSurroundings.stage).bind (·.1)).map (fun out =>
      (out.2.flatMap SubsequentResult.incremental, out.1.data.assemble out.2)) =
        some ([.stream ⟨[.string "x"], (((Path.root.key "q").key "r").key "l").index 0, none, []⟩], none) := by
    decide +kernel
  obtain ⟨out, hout, heq⟩ := Option.map_eq_some_iff.1 hrun
  obtain ⟨⟨out?, s'⟩, hrun', rfl⟩ := Option.bind_eq_some_iff.1 hout
  exact ⟨out.1, out.2, s', hrun', heq⟩

/-- The only entry of the response of `unsentSurroundings` cannot be brought into its data. -/
theorem items_without_list : ∃ initial s₀ results s', unsentSurroundings.Answered initial s₀ ∧
    PullsAll unsentSurroundings s₀ results s' ∧
    results.flatMap SubsequentResult.incremental =
      [.stream ⟨[.string "x"], (((Path.root.key "q").key "r").key "l").index 0, none, []⟩] ∧
    initial.data.assemble results = none := by
  obtain ⟨initial, results, s', hrun, heq⟩ := results_unsentSurroundings
  obtain ⟨s₀, hanswered, hall⟩ := ExecutionContext.pullsAll_of_results hrun
  rw [Prod.mk.injEq] at heq
  exact ⟨initial, s₀, results, s', hanswered, hall, heq⟩

/-- The items of `unsentSurroundings` are delivered after what they were reported for.  If that is a set of fields, it was
not sent, since the fragments of it that were delivered have failed. -/
theorem items_after_home : ∃ initial s₀ results s' is before p after k home, unsentSurroundings.Answered initial s₀ ∧
    PullsAll unsentSurroundings s₀ results s' ∧ resultsOf (looksOf is) = results ∧ is = before ++ .looked p :: after ∧
    k ∈ p.sent.map Prod.fst ∧ p.ReportedFor home k ∧
    ((¬ p.IsFieldSet home ∧ ∃ i ∈ before, home ∈ i.delivered) ∨
      p.IsFieldSet home ∧ (∃ q f, .looked q ∈ before ∧ f ∈ q.released ∧ q.BelongsTo home f) ∧
        (¬ ∃ q, .looked q ∈ before ∧ home ∈ q.sent.map Prod.fst) ∧
        ¬ ∃ q f, .looked q ∈ before ∧ f ∈ q.released ∧ q.BelongsTo home f ∧ (q.standing f).errors = []) := by
  obtain ⟨initial, results, s', hrun, heq⟩ := results_unsentSurroundings
  obtain ⟨s₀, hanswered, hall⟩ := ExecutionContext.pullsAll_of_results hrun
  rw [Prod.mk.injEq] at heq
  obtain ⟨is, s, his, hresults, -, hentries, hafter⟩ := PullsAll.nested_after_set hanswered hall
  -- the look that sends the items
  have hmem : .stream ⟨[.string "x"], (((Path.root.key "q").key "r").key "l").index 0, none, []⟩ ∈
      results.flatMap SubsequentResult.incremental := by
    rw [heq.1]
    exact List.mem_singleton_self _
  obtain ⟨result, hresult, hentry⟩ := List.mem_flatMap.1 hmem
  rw [← hresults] at hresult
  obtain ⟨p, hp, hlook⟩ := List.mem_filterMap.1 hresult
  have hp' := mem_looksOf.1 hp
  rw [hentries p result hp' hlook] at hentry
  obtain ⟨⟨k, label⟩, hsent, hstream⟩ := List.mem_map.1 hentry
  obtain ⟨before, after, rfl⟩ := List.append_of_mem hp'
  obtain ⟨⟨hand', s₁, h₁, hq, -⟩, -⟩ := his.split
  have hq' : s₁.publisher = p := hq
  subst hq'
  have hreleased : k ∈ s₁.publisher.released := by
    rcases h₁.listed.mem_sent hsent with ⟨hk, -⟩ | ⟨-, f, -, r, -, -, -, u, hu, -⟩
    · exact hk
    · -- a set of fields has another entry
      have hu' : s₁.publisher.record? k = some (.fieldSet u) := hu
      simp [Publisher.entryOf, hu'] at hstream
  obtain ⟨home, hlt, hhome, hrecord, hfields⟩ := hafter before _ after k rfl hreleased
  refine ⟨initial, s₀, results, s', _, before, _, after, k, home, hanswered, hall, hresults, rfl,
    List.mem_map_of_mem hsent, hhome, ?_⟩
  by_cases hset : s₁.publisher.IsFieldSet home
  · obtain ⟨hdelivered, hiff⟩ := hfields hset
    have hunsent : ¬ ∃ q, .looked q ∈ before ∧ home ∈ q.sent.map Prod.fst := by
      intro hsent
      obtain ⟨q, result, u, label, hq, hresult, -, hdefer⟩ := h₁.entry_of_sent hset ((h₁.sent_iff hset).2 hsent)
      -- the only entry is that of the items
      have hmem : result ∈ results := by
        rw [← hresults]
        exact List.mem_filterMap.2 ⟨q, mem_looksOf.2 (List.mem_append_left _ hq), hresult⟩
      have honly := List.mem_flatMap.2 ⟨result, hmem, hdefer⟩
      rw [heq.1, List.mem_singleton] at honly
      exact absurd honly (by simp)
    exact .inr ⟨hset, hdelivered, hunsent, hiff.not.1 hunsent⟩
  · exact .inl ⟨hset, hrecord hset⟩

end GraphQL
