import GraphQL.Proofs.Execution.HasNext
import GraphQL.Proofs.Execution.History

/-!
# How far a failure reaches

A value that becomes null takes with it what comes after the record in which it stands and delivers something at or below
it.  Everything else that comes after a delivered record is delivered (`PullsAll.reached_iff`).  Two things make this
reach farther than the value itself.

* A fragment with sets of fields at several places is lost as a whole with any one of them
  (`PullsAll.fragment_completed_iff`), as in `splitFragment`.
* What was reported for a set of fields comes after all fragments of the set, so it is lost with a value in another set
  that shares one of them, although other fragments deliver it (`PullsAll.isolated`), as in `sharedFailure`.
-/

namespace GraphQL

open Execution Stage

/-- What an entry delivers, and where. -/
def IncrementalEntry.content : IncrementalEntry → Json × Path
  | .defer e => (e.data, e.path)
  | .stream e => (.array e.items, e.path)

namespace Publisher

variable {p : Publisher Task} {path : Path} {id k parent : RecordId}

/-- The path, the label and the errors of a fragment. -/
def fragmentOf (p : Publisher Task) (id : RecordId) : Option (Path × Option String × List Error) :=
  match p.record? id with
  | some (.fragment r) => some (r.path, r.label, r.errors)
  | _ => none

/-- The path and the items of a part of a stream, and whether it is filtered. -/
def itemsOf (p : Publisher Task) (id : RecordId) : Option (Path × List Json × Bool) :=
  match p.record? id with
  | some (.items r) => some (r.path, r.items, r.filtered)
  | _ => none

theorem fragmentOf_eq_some {p : Publisher Task} {path : Path} {label : Option String} {errors : List Error} :
    p.fragmentOf id = some (path, label, errors) ↔
      ∃ r, p.record? id = some (.fragment r) ∧ r.path = path ∧ r.label = label ∧ r.errors = errors := by
  unfold fragmentOf
  split
  · rename_i r hr
    simp [hr]
  · rename_i hnot
    simp only [reduceCtorEq, false_iff, not_exists, not_and]
    exact fun r hr => absurd hr (hnot r)

theorem itemsOf_eq_some {p : Publisher Task} {path : Path} {items : List Json} {filtered : Bool} :
    p.itemsOf id = some (path, items, filtered) ↔
      ∃ r, p.record? id = some (.items r) ∧ r.path = path ∧ r.items = items ∧ r.filtered = filtered := by
  unfold itemsOf
  split
  · rename_i r hr
    simp [hr]
  · rename_i hnot
    simp only [reduceCtorEq, false_iff, not_exists, not_and]
    exact fun r hr => absurd hr (hnot r)

theorem follows_iff : p.Follows parent k ↔ k ∈ p.kids parent ∧ (p.standing k).filtered = false := by
  have hfiltered : (p.record? k).any Record.isFiltered = (p.standing k).filtered := by
    unfold standing facet
    cases p.record? k with
    | none => rfl
    | some r => cases r <;> rfl
  unfold Follows
  rw [mem_kids, hfiltered]
  constructor
  · rintro ⟨r, hr, hmem, hnot⟩
    exact ⟨⟨r, hr, hmem⟩, hnot⟩
  · rintro ⟨⟨r, hr, hmem⟩, hnot⟩
    exact ⟨r, hr, hmem, hnot⟩

/-- A record comes after another one, or a set of fields, by its parents: one of them is that record or a fragment of the
set, or comes after it. -/
theorem comesAfter_iff : p.ComesAfter id k ↔ ∃ f, k ∈ p.kids f ∧ (f ∈ p.attachedTo id ∨ p.ComesAfter id f) := by
  constructor
  · rintro ⟨child, hchild, hbelow⟩
    cases hbelow with
    | self =>
      obtain ⟨f, hf, hmem⟩ := mem_childrenOf.1 hchild
      exact ⟨f, hmem, .inl hf⟩
    | child hbelow hmem => exact ⟨_, hmem, .inr ⟨child, hchild, hbelow⟩⟩
  · rintro ⟨f, hmem, hf | ⟨child, hchild, hbelow⟩⟩
    · exact ⟨k, mem_childrenOf.2 ⟨f, hf, hmem⟩, .self⟩
    · exact ⟨child, hchild, hbelow.child hmem⟩

end Publisher

variable {c : ExecutionContext} {s₀ s s' : ExecStage} {is before after : List Incident} {hand : List RecordId}
  {k : RecordId}

namespace History

/-- The incidents before tell what has become of a record at an incident. -/
theorem told_at {i : Incident} (h : History c (before ++ i :: after) hand s) (k : RecordId) :
    (i.publisher.standing k).Told k before := by
  obtain ⟨⟨_, _, h', hi, -⟩, -⟩ := h.split
  rw [← hi]
  exact h'.told k

/-- A record is pending or was delivered exactly if, with the delivery of one of its parents, it was not lost. -/
theorem reached_iff_kids (h : History c is hand s) : k ∈ s.publisher.pending ∨ k ∈ handled (looksOf is) ↔
    ∃ before i after, is = before ++ i :: after ∧ (∃ parent ∈ i.delivered, k ∈ i.publisher.kids parent) ∧
      ∀ n ∈ before, ¬ n.Loses k := by
  rw [h.reached_iff]
  constructor
  · rintro ⟨i, hi, parent, hparent, hfollows⟩
    obtain ⟨before, after, rfl⟩ := List.append_of_mem hi
    obtain ⟨hkid, hfiltered⟩ := Publisher.follows_iff.1 hfollows
    refine ⟨before, i, after, rfl, ⟨parent, hparent, hkid⟩, fun n hn hloses => ?_⟩
    rw [(h.told_at k).filtered.2 ⟨n, hn, hloses⟩] at hfiltered
    exact absurd hfiltered (by simp)
  · rintro ⟨before, i, after, rfl, ⟨parent, hparent, hkid⟩, hkept⟩
    refine ⟨i, by simp, parent, hparent, Publisher.follows_iff.2 ⟨hkid, ?_⟩⟩
    rw [Bool.eq_false_iff]
    intro hfiltered
    obtain ⟨n, hn, hloses⟩ := (h.told_at k).filtered.1 hfiltered
    exact hkept n hn hloses

end History

theorem mem_looksOf {p : Publisher Task} : p ∈ looksOf is ↔ .looked p ∈ is := by
  unfold looksOf
  rw [List.mem_filterMap]
  constructor
  · rintro ⟨i, hi, hlook⟩
    cases i with
    | looked q =>
      obtain rfl := Option.some.inj hlook
      exact hi
    | _ => exact absurd hlook (by simp [Incident.look?])
  · exact fun hp => ⟨_, hp, rfl⟩

/-- A response that has come to its end is over. -/
theorem PullsAll.over {initial : InitialResult} {results : List SubsequentResult} (h : PullsAll c s₀ results s')
    (h₀ : c.Answered initial s₀) (hstands : Pulls.Stands s results s') : s.Over s' := by
  obtain ⟨hs₀, hdone, -, hpending⟩ := h₀.sound
  cases hstands with
  | going _ hopen =>
    rw [h.outputDone hs₀ hdone hpending] at hopen
    exact absurd hopen (by simp)
  | last hover => exact hover
  | stalled hover => exact hover

/-- A response that has come to its end has a history, and whatever is pending then is stranded. -/
theorem PullsAll.history {initial : InitialResult} {results : List SubsequentResult} (h₀ : c.Answered initial s₀)
    (h : PullsAll c s₀ results s') :
    ∃ is s, History c is [] s ∧ resultsOf (looksOf is) = results ∧ s.Over s' ∧
      ∀ k ∈ s.publisher.pending, s'.Stranded k := by
  obtain ⟨is, s, his, hresults, hstands⟩ := h.pulls.history h₀
  obtain ⟨-, -, -, hall⟩ := Pulls.hasNext h₀ Pulls.start
  obtain ⟨-, hstranded, -⟩ := hall _ s' h
  have hover := h.over h₀ hstands
  refine ⟨is, s, his, hresults, hover, fun k hk => hstranded k ?_⟩
  rw [hover.pending]
  exact hk

/-- At the end of a response a record was delivered, or is stranded, exactly if with the delivery of one of its parents
it was not lost. -/
theorem History.reached_at_end (h : History c is [] s) (hover : s.Over s')
    (hpending : ∀ k ∈ s.publisher.pending, s'.Stranded k) (k : RecordId) :
    ((∃ p, .looked p ∈ is ∧ k ∈ p.released) ∨ s'.Stranded k ↔
      ∃ before i after, is = before ++ i :: after ∧ (∃ parent ∈ i.delivered, k ∈ i.publisher.kids parent) ∧
        ∀ n ∈ before, ¬ n.Loses k) := by
  rw [← h.reached_iff_kids, or_comm, mem_handled]
  refine or_congr ⟨fun hstranded => ?_, hpending k⟩ ?_
  · rw [← hover.pending]
    exact hstranded.pending
  · simp only [mem_looksOf]

/-- In the result for a look, a released fragment is completed, with the errors that it has. -/
theorem History.completed_entry (h : History c (before ++ .looked p :: after) [] s) {F : RecordId}
    (hF : F ∈ p.released) {r : FragmentRecord} (hr : p.record? F = some (.fragment r)) :
    ∃ result, p.nextResult?.2 = some result ∧ ⟨r.path, r.label, (p.standing F).errors⟩ ∈ result.completed := by
  obtain ⟨⟨_, s', h', rfl, -⟩, -⟩ := h.split
  have hhandled := h'.sound.publisher.nextResult?
  have hentries : s'.publisher.completedEntries F = [⟨r.path, r.label, (s'.publisher.standing F).errors⟩] := by
    unfold Publisher.completedEntries Publisher.standing Publisher.facet
    have hr' : s'.publisher.record? F = some (.fragment r) := hr
    rw [hr']
    rfl
  have hmem : ⟨r.path, r.label, (s'.publisher.standing F).errors⟩ ∈
      s'.publisher.released.flatMap s'.publisher.completedEntries :=
    List.mem_flatMap.2 ⟨F, hF, by rw [hentries]; exact List.mem_singleton_self _⟩
  cases hresult : s'.publisher.nextResult?.2 with
  | none =>
    rw [(hhandled.silent hresult).1] at hmem
    exact absurd hmem (by simp)
  | some result =>
    refine ⟨result, rfl, ?_⟩
    rw [hhandled.completed result hresult]
    exact hmem

/-- A set of fields counts as sent exactly if a look has sent it. -/
theorem History.sent_iff (h : History c is hand s) {set : RecordId} (hset : s.publisher.IsFieldSet set) :
    (s.publisher.standing set).sent = true ↔ ∃ q, .looked q ∈ is ∧ set ∈ q.sent.map Prod.fst := by
  constructor
  · intro hsent
    clear hset
    -- by the length of the history: the first look with a fragment of the set that has no errors sends it
    induction hlength : is.length using Nat.strongRecOn generalizing is hand s with
    | ind n ih =>
      obtain ⟨i, hi, hsends⟩ := (h.told set).sent.1 hsent
      cases i with
      | looked q =>
        obtain ⟨before, after, rfl⟩ := List.append_of_mem hi
        obtain ⟨⟨hand', s', h', rfl, -⟩, -⟩ := h.split
        obtain ⟨f, hf, hset, herrors⟩ := hsends
        by_cases hbefore : (s'.publisher.standing set).sent = true
        · have hlt : before.length < n := by
            rw [← hlength, List.length_append, List.length_cons]
            omega
          obtain ⟨q, hq, hmem⟩ := ih _ hlt h' hbefore rfl
          exact ⟨q, List.mem_append_left _ hq, hmem⟩
        · obtain ⟨u, hu, hmem⟩ := id hset
          obtain ⟨-, r, hr⟩ := h'.sound.publisher.linked.fragments set u hu f hmem
          have hunsent : s'.publisher.isUnsent set = true := by
            unfold Publisher.standing Publisher.facet at hbefore
            unfold Publisher.isUnsent
            have hu' : s'.publisher.record? set = some (.fieldSet u) := hu
            rw [hu'] at hbefore ⊢
            simpa [Record.standing] using hbefore
          have hnone : r.errors = [] := by
            have hr' : s'.publisher.record? f = some (.fragment r) := hr
            simpa [Publisher.standing, Publisher.facet, hr', Record.standing] using herrors
          exact ⟨_, hi, h'.listed.mem_sent_of_belongsTo hf hr hnone hset hunsent⟩
      | _ => exact hsends.elim
  · rintro ⟨q, hq, hmem⟩
    obtain ⟨⟨_, label⟩, hpair, rfl⟩ := List.mem_map.1 hmem
    obtain ⟨before, after, rfl⟩ := List.append_of_mem hq
    obtain ⟨⟨hand', s', h', rfl, hpersists⟩, -⟩ := h.split
    refine (h.told _).sent.2 ⟨_, hq, ?_⟩
    rcases h'.listed.mem_sent hpair with ⟨-, -, r, hr, -⟩ | ⟨-, f, hf, r, hr, herrors, -, hbelongs⟩
    · -- items are no set of fields
      obtain ⟨u, hu⟩ := hset
      obtain ⟨r', hr', hg⟩ := hpersists _ _ hr
      rw [hu] at hr'
      cases hr'
      exact absurd hg (by rintro ⟨⟩)
    · refine ⟨f, hf, hbelongs, ?_⟩
      have hr' : s'.publisher.record? f = some (.fragment r) := hr
      show (s'.publisher.standing f).errors = []
      unfold Publisher.standing Publisher.facet
      rw [hr']
      exact herrors

/-- The entries of the result of a look are those of what it sends. -/
theorem History.incremental (h : History c is hand s) {q : Publisher Task} (hq : .looked q ∈ is)
    {result : SubsequentResult} (hresult : q.nextResult?.2 = some result) :
    result.incremental = q.sent.map q.entryOf := by
  obtain ⟨before, after, rfl⟩ := List.append_of_mem hq
  obtain ⟨⟨hand', s', h', rfl, -⟩, -⟩ := h.split
  have hentries := h'.sound.publisher.incremental_nextResult? h'.listed.listsOnce
  have hresult' : s'.publisher.nextResult?.2 = some result := hresult
  rw [hresult'] at hentries
  exact hentries

/-- What a look sends is in its result. -/
theorem History.exists_result (h : History c is hand s) {q : Publisher Task} (hq : .looked q ∈ is)
    (hsent : q.sent ≠ []) : ∃ result, q.nextResult?.2 = some result := by
  obtain ⟨before, after, rfl⟩ := List.append_of_mem hq
  obtain ⟨⟨hand', s', h', rfl, -⟩, -⟩ := h.split
  have hentries := h'.sound.publisher.incremental_nextResult? h'.listed.listsOnce
  cases hresult : s'.publisher.nextResult?.2 with
  | some result => exact ⟨result, rfl⟩
  | none =>
    rw [hresult] at hentries
    exact absurd (List.map_eq_nil_iff.1 hentries.symm) hsent

/-- A set of fields that counts as sent is an entry of a result. -/
theorem History.entry_of_sent (h : History c is hand s) {set : RecordId} (hset : s.publisher.IsFieldSet set)
    (hsent : (s.publisher.standing set).sent = true) :
    ∃ q result u label, .looked q ∈ is ∧ q.nextResult?.2 = some result ∧ q.record? set = some (.fieldSet u) ∧
      .defer ⟨u.data.getD .null, u.path, label, u.errors⟩ ∈ result.incremental := by
  obtain ⟨q, hq, hmem⟩ := (h.sent_iff hset).1 hsent
  obtain ⟨⟨set, label⟩, hpair, rfl⟩ := List.mem_map.1 hmem
  obtain ⟨result, hresult⟩ := h.exists_result hq (List.ne_nil_of_mem hpair)
  have hentry := List.mem_map_of_mem (f := q.entryOf) hpair
  rw [← h.incremental hq hresult] at hentry
  -- the set was there when it was sent
  obtain ⟨before, after, rfl⟩ := List.append_of_mem hq
  obtain ⟨⟨hand', s', h', rfl, hpersists⟩, -⟩ := h.split
  have hthere : ∃ u, s'.publisher.record? set = some (.fieldSet u) := by
    rcases h'.listed.mem_sent hpair with ⟨-, -, r, hr, -⟩ | ⟨-, f, -, -, -, -, -, u, hu, -⟩
    · obtain ⟨u, hu⟩ := hset
      obtain ⟨r', hr', hg⟩ := hpersists _ _ hr
      rw [hu] at hr'
      cases hr'
      exact absurd hg (by rintro ⟨⟩)
    · exact ⟨u, hu⟩
  obtain ⟨u, hu⟩ := hthere
  refine ⟨_, result, u, label, hq, hresult, hu, ?_⟩
  unfold Publisher.entryOf at hentry
  have hu' : s'.publisher.record? set = some (.fieldSet u) := hu
  simp only [hu'] at hentry
  exact hentry

/-- A fragment is lost with a value that becomes null in a record before it, at or above its own path or the path of any
of its sets of fields. -/
theorem History.loses_fragment_iff {q : Publisher Task} {path : Path} {record F : RecordId} {r : FragmentRecord}
    (h : History c (before ++ .nulled q path record :: after) hand s) (hr : s.publisher.record? F = some (.fragment r)) :
    Incident.Loses F (.nulled q path record) ↔ q.ComesAfter record F ∧ (r.path.startsWith path = true ∨
      ∃ set u, q.BelongsTo set F ∧ q.record? set = some (.fieldSet u) ∧ u.path.startsWith path = true) := by
  obtain ⟨⟨_, s', h', rfl, hpersists⟩, -⟩ := h.split
  refine and_congr_right fun hafter => ?_
  -- what comes after a record is there, and it is the fragment
  have hthere : ∃ r', s'.publisher.record? F = some (.fragment r') ∧ r'.path = r.path := by
    obtain ⟨f, hkid, -⟩ := Publisher.comesAfter_iff.1 hafter
    obtain ⟨rf, hrf, hmem⟩ := Publisher.mem_kids.1 hkid
    obtain ⟨-, r', hr', -⟩ := h'.sound.publisher.linked.children f rf hrf F hmem
    obtain ⟨r'', hr'', hg⟩ := hpersists F r' hr'
    have heq := hr.symm.trans hr''
    cases heq
    cases r' with
    | fragment r' =>
      cases hg with
      | fragment hpath => exact ⟨r', hr', hpath.symm⟩
    | _ => exact absurd hg (by rintro ⟨⟩)
  obtain ⟨r', hr', hpath⟩ := hthere
  have hunder := Publisher.isUnder_fragment hr' path
  refine hunder.trans ?_
  rw [hpath]
  refine or_congr_right ⟨fun ⟨set, hset, u, hu, hstarts⟩ => ?_, fun ⟨set, u, hset, hu, hstarts⟩ => ?_⟩
  · exact ⟨set, u, (h'.listed.mem_fieldSets hr').1 hset, hu, hstarts⟩
  · exact ⟨set, (h'.listed.mem_fieldSets hr').2 hset, u, hu, hstarts⟩

/-- What a deferred fragment comes to in a response that has come to its end.  It is completed exactly if, with the
delivery of something that it comes after, no value had become null, in a record before it, at or above its own path or
the path of any of its sets of fields.  Then it has errors exactly if one of its sets of fields had failed by then, and
without errors all its sets of fields are entries of that result or of earlier ones. -/
theorem PullsAll.fragment_completed_iff {initial : InitialResult} {results : List SubsequentResult}
    (h₀ : c.Answered initial s₀) (h : PullsAll c s₀ results s') :
    ∃ is s, History c is [] s ∧ resultsOf (looksOf is) = results ∧ s.Over s' ∧
      ∀ F r, s'.publisher.record? F = some (.fragment r) →
        ((∃ p, .looked p ∈ is ∧ F ∈ p.released) ↔
          ∃ before i after, is = before ++ i :: after ∧ (∃ parent ∈ i.delivered, F ∈ i.publisher.kids parent) ∧
            ¬ ∃ q path record, .nulled q path record ∈ before ∧ q.ComesAfter record F ∧
              (r.path.startsWith path = true ∨
                ∃ set u, q.BelongsTo set F ∧ q.record? set = some (.fieldSet u) ∧ u.path.startsWith path = true)) ∧
        ∀ before p after, is = before ++ .looked p :: after → F ∈ p.released →
          ∃ result errors, p.nextResult?.2 = some result ∧ ⟨r.path, r.label, errors⟩ ∈ result.completed ∧
            (errors = [] ↔ ¬ ∃ q set, .failed q set ∈ before ∧ q.BelongsTo set F) ∧
            (errors = [] → ∀ set, p.BelongsTo set F → ∃ q result u label, (.looked q ∈ before ∨ q = p) ∧
              q.nextResult?.2 = some result ∧ q.record? set = some (.fieldSet u) ∧
              .defer ⟨u.data.getD .null, u.path, label, u.errors⟩ ∈ result.incremental) := by
  obtain ⟨is, s, his, hresults, hover, hpending⟩ := h.history h₀
  refine ⟨is, s, his, hresults, hover, fun F r hr => ?_⟩
  have hr₀ : s.publisher.record? F = some (.fragment r) := by
    unfold Publisher.record? at hr ⊢
    rw [← hover.records]
    exact hr
  refine ⟨?_, ?_⟩
  · have hnot : ¬ s'.Stranded F := by
      rintro ⟨-, -, ri, hri, -⟩
      rw [hr] at hri
      exact absurd hri (by simp)
    refine (or_iff_left hnot).symm.trans ((his.reached_at_end hover hpending F).trans ?_)
    constructor
    · rintro ⟨before, i, after, rfl, hkid, hkept⟩
      refine ⟨before, i, after, rfl, hkid, fun ⟨q, path, record, hn, hafter, hpath⟩ => hkept _ hn ?_⟩
      obtain ⟨b, a, rfl⟩ := List.append_of_mem hn
      rw [List.append_assoc, List.cons_append] at his
      exact (his.loses_fragment_iff hr₀).2 ⟨hafter, hpath⟩
    · rintro ⟨before, i, after, rfl, hkid, hkept⟩
      refine ⟨before, i, after, rfl, hkid, fun n hn hloses => hkept ?_⟩
      cases n with
      | nulled q path record =>
        refine ⟨q, path, record, hn, ?_⟩
        obtain ⟨b, a, rfl⟩ := List.append_of_mem hn
        rw [List.append_assoc, List.cons_append] at his
        exact (his.loses_fragment_iff hr₀).1 hloses
      | _ => exact hloses.elim
  · rintro before p after rfl hF
    obtain ⟨⟨_, s₁, h₁, hp, hpersists⟩, _, s₂, hlook⟩ := his.split
    have hfragment : ∃ r₁, p.record? F = some (.fragment r₁) ∧ r₁.path = r.path ∧ r₁.label = r.label := by
      have hp' : s₁.publisher = p := hp
      subst hp'
      obtain ⟨r₁, hr₁, -⟩ := h₁.sound.publisher.prompt.deliverable F (h₁.sound.publisher.prompt.released F hF)
      obtain ⟨r₂, hr₂, hg⟩ := hpersists F r₁ hr₁
      have heq := hr₀.symm.trans hr₂
      cases heq
      cases r₁ with
      | fragment r₁ =>
        cases hg with
        | fragment hpath hlabel => exact ⟨r₁, hr₁, hpath.symm, hlabel.symm⟩
      | _ => exact absurd hg (by rintro ⟨⟩)
    obtain ⟨r₁, hr₁, hpath, hlabel⟩ := hfragment
    obtain ⟨result, hresult, hentry⟩ := his.completed_entry hF hr₁
    rw [hpath, hlabel] at hentry
    refine ⟨result, _, hresult, hentry, ?_, fun herrors set hset => ?_⟩
    · rw [← not_iff_not, not_not]
      refine (his.told_at F).failed.trans ⟨fun ⟨i, hi, hfails⟩ => ?_, fun ⟨q, set, hi, hset⟩ => ⟨_, hi, hset⟩⟩
      cases i with
      | failed q set => exact ⟨q, set, hi, hfails⟩
      | _ => exact hfails.elim
    · -- the set counts as sent after the look
      have hp' : s₁.publisher = p := hp
      subst hp'
      have hsent : (s₂.publisher.standing set).sent = true :=
        (hlook.told set).sent.2 ⟨_, List.mem_append_right _ (List.mem_singleton_self _), F, hF, hset, herrors⟩
      obtain ⟨⟨_, s₃, -, hq₃, hpersists₃⟩, -⟩ := History.split hlook
      have hq₃' : s₃.publisher = s₁.publisher := hq₃
      rw [hq₃'] at hpersists₃
      obtain ⟨u₂, hu₂, -⟩ := hpersists₃.belongsTo hset
      obtain ⟨q, result, u, label, hq, hrest⟩ := hlook.entry_of_sent ⟨u₂, hu₂⟩ hsent
      refine ⟨q, result, u, label, ?_, hrest⟩
      rw [List.mem_append, List.mem_singleton, Incident.looked.injEq] at hq
      exact hq

/-- A fragment within another one, with sets of fields at two places: at the root, and in `p`, whose other field has been
collected for the outer fragment.  That field fails and `p` becomes null before the outer fragment is delivered. -/
def splitFragment : ExecutionContext :=
  .ofSelections
    [.ofFields "Query" [("p", .named "P"), ("q", .named "String")],
      .ofFields "P" [("a", .named "String"), ("must", .nonNull (.named "String"))]]
    [("P.must", { resolve := fun _ => .ok (.later none 1 (.error (.custom "no"))) })]
    (.object [("p", .object [("a", .string "1")]), ("q", .string "2")])
    [.deferred [.named "p" [.named "must"], .deferredAs "inner" [.named "p" [.named "a"], .named "q"]]]

set_option synthInstance.maxSize 1200 in
private theorem results_splitFragment : ∃ initial results s',
    (splitFragment.results 10).run splitFragment.stage = some (some (initial, results), s') ∧
      ((results.flatMap SubsequentResult.incremental).map IncrementalEntry.content,
        results.flatMap SubsequentResult.completed, (s'.publisher.record? ⟨1⟩).map Record.children,
        s'.publisher.fragmentOf ⟨2⟩) =
      ([(.object [("p", .null)], .root)], [⟨.root, none, []⟩], some [⟨2⟩], some (.root, some "inner", [])) := by
  have hrun : ((splitFragment.results 10).run splitFragment.stage).bind (fun out => out.1.map fun results =>
      ((results.2.flatMap SubsequentResult.incremental).map IncrementalEntry.content,
        results.2.flatMap SubsequentResult.completed, (out.2.publisher.record? ⟨1⟩).map Record.children,
        out.2.publisher.fragmentOf ⟨2⟩)) =
      some ([(.object [("p", .null)], .root)], [⟨.root, none, []⟩], some [⟨2⟩], some (.root, some "inner", [])) := by
    decide +kernel
  obtain ⟨⟨out?, s'⟩, hrun', hsome⟩ := Option.bind_eq_some_iff.1 hrun
  obtain ⟨⟨initial, results⟩, rfl, heq⟩ := Option.map_eq_some_iff.1 hsome
  exact ⟨initial, results, s', hrun', heq⟩

/-- In `splitFragment` no fragment has errors and the outer one is delivered, with `p` as the only value that has become
null.  The inner one, whose path is the root, is not completed, and its field `q` is not delivered. -/
theorem inner_fragment_lost : ∃ initial s₀ results s' outer inner r, splitFragment.Answered initial s₀ ∧
    PullsAll splitFragment s₀ results s' ∧ inner ∈ s'.publisher.kids outer ∧
    s'.publisher.record? inner = some (.fragment r) ∧ r.path = .root ∧ r.label = some "inner" ∧ r.errors = [] ∧
    (results.flatMap SubsequentResult.incremental).map IncrementalEntry.content = [(.object [("p", .null)], .root)] ∧
    results.flatMap SubsequentResult.completed = [⟨.root, none, []⟩] := by
  obtain ⟨initial, results, s', hrun, heq⟩ := results_splitFragment
  obtain ⟨s₀, hanswered, hall⟩ := ExecutionContext.pullsAll_of_results hrun
  simp only [Prod.mk.injEq] at heq
  obtain ⟨hincremental, hcompleted, hchildren, hinner⟩ := heq
  obtain ⟨r, hr, hpath, hlabel, herrors⟩ := Publisher.fragmentOf_eq_some.1 hinner
  obtain ⟨outer, houter, hkids⟩ := Option.map_eq_some_iff.1 hchildren
  refine ⟨initial, s₀, results, s', ⟨1⟩, ⟨2⟩, r, hanswered, hall, ?_, hr, hpath, hlabel, herrors, hincremental, hcompleted⟩
  exact Publisher.mem_kids.2 ⟨outer, houter, by rw [hkids]; exact List.mem_singleton_self _⟩

/-- The inner fragment of `splitFragment` is not delivered. -/
theorem inner_fragment_not_released : ∃ initial s₀ results s' is F r, splitFragment.Answered initial s₀ ∧
    PullsAll splitFragment s₀ results s' ∧ resultsOf (looksOf is) = results ∧
    s'.publisher.record? F = some (.fragment r) ∧ r.label = some "inner" ∧
    ¬ ∃ p, .looked p ∈ is ∧ F ∈ p.released := by
  obtain ⟨initial, results, s', hrun, heq⟩ := results_splitFragment
  obtain ⟨s₀, hanswered, hall⟩ := ExecutionContext.pullsAll_of_results hrun
  simp only [Prod.mk.injEq] at heq
  obtain ⟨-, hcompleted, -, hinner⟩ := heq
  obtain ⟨r, hr, -, hlabel, -⟩ := Publisher.fragmentOf_eq_some.1 hinner
  obtain ⟨is, s, -, hresults, -, hfragments⟩ := PullsAll.fragment_completed_iff hanswered hall
  refine ⟨initial, s₀, results, s', is, ⟨2⟩, r, hanswered, hall, hresults, hr, hlabel, ?_⟩
  rintro ⟨p, hp, hreleased⟩
  obtain ⟨before, after, rfl⟩ := List.append_of_mem hp
  obtain ⟨result, errors, hresult, hentry, -⟩ := (hfragments ⟨2⟩ r hr).2 before p after rfl hreleased
  -- its entry would be among the completed ones
  have hmem : result ∈ results := by
    rw [← hresults]
    exact List.mem_filterMap.2 ⟨p, mem_looksOf.2 hp, hresult⟩
  have hmem' : ⟨r.path, r.label, errors⟩ ∈ results.flatMap SubsequentResult.completed :=
    List.mem_flatMap.2 ⟨result, hmem, hentry⟩
  rw [hcompleted, List.mem_singleton, hlabel] at hmem'
  exact absurd (congrArg CompletedEntry.label hmem') (by simp)

/-- A record is lost with a value that becomes null at or above it, in a record that one of its parents comes after, or
is, or in a set of fields of such a parent. -/
theorem Incident.exists_loses_iff :
    (∃ n ∈ is, n.Loses k) ↔ ∃ q path record f, .nulled q path record ∈ is ∧ q.isUnder k path = true ∧ k ∈ q.kids f ∧
      (f ∈ q.attachedTo record ∨ q.ComesAfter record f) := by
  constructor
  · rintro ⟨n, hn, hloses⟩
    cases n with
    | nulled q path record =>
      obtain ⟨hafter, hunder⟩ := hloses
      obtain ⟨f, hkid, hparent⟩ := Publisher.comesAfter_iff.1 hafter
      exact ⟨q, path, record, f, hn, hunder, hkid, hparent⟩
    | _ => exact hloses.elim
  · rintro ⟨q, path, record, f, hn, hunder, hkid, hparent⟩
    exact ⟨_, hn, Publisher.comesAfter_iff.2 ⟨f, hkid, hparent⟩, hunder⟩

/-- How far the failure of a set of fields, or a value that becomes null, reaches in a response that has come to its end.
A record is filtered exactly if such a value is at or above it and stands in a record that one of its parents is or comes
after, or in a set of fields of such a parent.  A child of a delivered record that was not filtered by then is delivered,
unless it is stranded; one that was has a parent which is the delivered record, or a fragment that shares a set of fields
with it.  And exactly those streams are closed whose items are filtered. -/
theorem PullsAll.isolated {initial : InitialResult} {results : List SubsequentResult}
    (h₀ : c.Answered initial s₀) (h : PullsAll c s₀ results s') :
    ∃ is s, History c is [] s ∧ resultsOf (looksOf is) = results ∧ s.Over s' ∧
      (∀ k, (s'.publisher.standing k).filtered = true ↔ ∃ q path record f, .nulled q path record ∈ is ∧
        q.isUnder k path = true ∧ k ∈ q.kids f ∧ (f ∈ q.attachedTo record ∨ q.ComesAfter record f)) ∧
      (∀ before p after F k, is = before ++ .looked p :: after → F ∈ p.released → k ∈ p.kids F →
        ((p.standing k).filtered = false → (∃ q, .looked q ∈ is ∧ k ∈ q.released) ∨ s'.Stranded k) ∧
        ((p.standing k).filtered = true → ∃ q path record f, .nulled q path record ∈ before ∧
          q.isUnder k path = true ∧ k ∈ q.kids f ∧ (f ∈ q.attachedTo record ∨ q.ComesAfter record f) ∧
          (f = F ∨ ∃ set, p.BelongsTo set f ∧ p.BelongsTo set F))) ∧
      ∀ q path record stream, .nulled q path record ∈ is → (stream ∈ (q.filter path record).2 ↔
        ∃ k r, q.record? k = some (.items r) ∧ r.stream = stream ∧ q.isUnder k path = true ∧
          ∃ f, k ∈ q.kids f ∧ (f ∈ q.attachedTo record ∨ q.ComesAfter record f)) := by
  obtain ⟨is, s, his, hresults, hover, hpending⟩ := h.history h₀
  refine ⟨is, s, his, hresults, hover, fun k => ?_, ?_, fun q path record stream _ => ?_⟩
  · have hstanding : s'.publisher.standing k = s.publisher.standing k :=
      Publisher.facet_of_record? (by unfold Publisher.record?; rw [hover.records])
    rw [hstanding, (his.told k).filtered, Incident.exists_loses_iff]
  · rintro before p after F k rfl hF hkid
    refine ⟨fun hkept => (his.reached_at_end hover hpending k).2 ?_, fun hfiltered => ?_⟩
    · refine ⟨before, .looked p, after, rfl, ⟨F, hF, hkid⟩, fun n hn hloses => ?_⟩
      have hfiltered := (his.told_at k).filtered.2 ⟨n, hn, hloses⟩
      exact absurd (hkept.symm.trans hfiltered) (by simp)
    · obtain ⟨q, path, record, f, hn, hunder, hkid', hparent⟩ :=
        Incident.exists_loses_iff.1 ((his.told_at k).filtered.1 hfiltered)
      refine ⟨q, path, record, f, hn, hunder, hkid', hparent, ?_⟩
      by_cases heq : f = F
      · exact .inl heq
      · right
        obtain ⟨⟨_, s₁, h₁, hp, -⟩, -⟩ := his.split
        have hp' : s₁.publisher = p := hp
        subst hp'
        obtain ⟨b, a, rfl⟩ := List.append_of_mem hn
        obtain ⟨⟨_, s₂, -, hq, hpersists⟩, -⟩ := h₁.split
        have hq' : s₂.publisher = q := hq
        subst hq'
        obtain ⟨rF, hrF, hmem⟩ := Publisher.mem_kids.1 hkid
        obtain ⟨-, r, hr, -⟩ := h₁.sound.publisher.linked.children F rF hrF k hmem
        exact h₁.ordered.shared f F k (Publisher.lt_size_of_record? hr) (hpersists.kids f hkid') hkid heq
  · rw [Publisher.mem_filter_streams]
    refine exists_congr fun k => exists_congr fun r => ?_
    unfold Publisher.Loses
    rw [Publisher.comesAfter_iff]
    constructor
    · rintro ⟨⟨hparent, hunder⟩, hr, hstream⟩
      exact ⟨hr, hstream, hunder, hparent⟩
    · rintro ⟨hr, hstream, hunder, hparent⟩
      exact ⟨⟨hparent, hunder⟩, hr, hstream⟩

/-- Two fragments share a set of fields, which streams a list; another set of the first one fails before the shared one is
completed. -/
def sharedFailure : ExecutionContext :=
  .ofSelections
    [.ofFields "Query" [("o", .named "O"), ("must", .nonNull (.named "String"))],
      .ofFields "O" [("l", .list (.named "String")), ("slow", .named "String")]]
    [("Query.must", { resolve := fun _ => .ok (.later none 1 (.error (.custom "no"))) }),
      ("O.slow", { resolve := fun _ => .ok (.later none 5 (.ok (.value (.string "z")))) })]
    (.object [("o", .object [("l", .array [.string "x"])])])
    [.deferred [.named "o" [.streamed "l", .named "slow"], .named "must"],
      .deferred [.named "o" [.streamed "l", .named "slow"]]]

set_option synthInstance.maxSize 1200 in
private theorem results_sharedFailure : ∃ initial results s',
    (sharedFailure.results 10).run sharedFailure.stage = some (some (initial, results), s') ∧
      ((results.flatMap SubsequentResult.incremental).map IncrementalEntry.content,
        ((results.flatMap SubsequentResult.completed).map fun e => (e.path, e.errors.length)),
        s'.publisher.fragmentOf ⟨2⟩, (s'.publisher.record? ⟨2⟩).map Record.children,
        s'.publisher.itemsOf ⟨5⟩) =
      ([(.object [("o", .object [("l", .array []), ("slow", .string "z")])], .root)], [(.root, 1), (.root, 0)],
        some (.root, none, []), some [⟨5⟩], some (((Path.root.key "o").key "l").index 0, [.string "x"], true)) := by
  have hrun : ((sharedFailure.results 10).run sharedFailure.stage).bind (fun out => out.1.map fun results =>
      ((results.2.flatMap SubsequentResult.incremental).map IncrementalEntry.content,
        ((results.2.flatMap SubsequentResult.completed).map fun e => (e.path, e.errors.length)),
        out.2.publisher.fragmentOf ⟨2⟩, (out.2.publisher.record? ⟨2⟩).map Record.children,
        out.2.publisher.itemsOf ⟨5⟩)) =
      some ([(.object [("o", .object [("l", .array []), ("slow", .string "z")])], .root)], [(.root, 1), (.root, 0)],
        some (.root, none, []), some [⟨5⟩], some (((Path.root.key "o").key "l").index 0, [.string "x"], true)) := by
    decide +kernel
  obtain ⟨⟨out?, s'⟩, hrun', hsome⟩ := Option.bind_eq_some_iff.1 hrun
  obtain ⟨⟨initial, results⟩, rfl, heq⟩ := Option.map_eq_some_iff.1 hsome
  exact ⟨initial, results, s', hrun', heq⟩

/-- In `sharedFailure` the second fragment has no errors and is delivered with the streamed list, which did not become
null.  The items of the list are a child of the fragment, and they are not delivered. -/
theorem shared_stream_lost : ∃ initial s₀ results s' F r k items, sharedFailure.Answered initial s₀ ∧
    PullsAll sharedFailure s₀ results s' ∧ s'.publisher.record? F = some (.fragment r) ∧ r.path = .root ∧ r.errors = [] ∧
    k ∈ s'.publisher.kids F ∧ s'.publisher.record? k = some (.items items) ∧
    items.path = ((Path.root.key "o").key "l").index 0 ∧ items.items = [.string "x"] ∧
    (results.flatMap SubsequentResult.incremental).map IncrementalEntry.content =
      [(.object [("o", .object [("l", .array []), ("slow", .string "z")])], .root)] ∧
    (results.flatMap SubsequentResult.completed).map (fun e => (e.path, e.errors.length)) = [(.root, 1), (.root, 0)] := by
  obtain ⟨initial, results, s', hrun, heq⟩ := results_sharedFailure
  obtain ⟨s₀, hanswered, hall⟩ := ExecutionContext.pullsAll_of_results hrun
  simp only [Prod.mk.injEq] at heq
  obtain ⟨hincremental, hcompleted, hfragment, hchildren, hitems⟩ := heq
  obtain ⟨r, hr, hpath, -, herrors⟩ := Publisher.fragmentOf_eq_some.1 hfragment
  obtain ⟨items, hk, hitemsPath, hvalues, -⟩ := Publisher.itemsOf_eq_some.1 hitems
  obtain ⟨r', hr', hkids⟩ := Option.map_eq_some_iff.1 hchildren
  refine ⟨initial, s₀, results, s', ⟨2⟩, r, ⟨5⟩, items, hanswered, hall, hr, hpath, herrors, ?_, hk, hitemsPath, hvalues,
    hincremental, hcompleted⟩
  exact Publisher.mem_kids.2 ⟨r', hr', by rw [hkids]; exact List.mem_singleton_self _⟩

/-- The items of `sharedFailure` are filtered with a value that became null at or above them. -/
theorem shared_items_nulled : ∃ initial s₀ results s' is k r, sharedFailure.Answered initial s₀ ∧
    PullsAll sharedFailure s₀ results s' ∧ resultsOf (looksOf is) = results ∧
    s'.publisher.record? k = some (.items r) ∧ r.path = ((Path.root.key "o").key "l").index 0 ∧
    ∃ q path record, .nulled q path record ∈ is ∧ q.isUnder k path = true := by
  obtain ⟨initial, results, s', hrun, heq⟩ := results_sharedFailure
  obtain ⟨s₀, hanswered, hall⟩ := ExecutionContext.pullsAll_of_results hrun
  simp only [Prod.mk.injEq] at heq
  obtain ⟨-, -, -, -, hitems⟩ := heq
  obtain ⟨r, hr, hpath, -, hfiltered⟩ := Publisher.itemsOf_eq_some.1 hitems
  obtain ⟨is, s, -, hresults, -, hlost, -⟩ := PullsAll.isolated hanswered hall
  have hstanding : (s'.publisher.standing ⟨5⟩).filtered = true := by
    unfold Publisher.standing Publisher.facet
    rw [hr]
    exact hfiltered
  obtain ⟨q, path, record, -, hq, hunder, -⟩ := (hlost ⟨5⟩).1 hstanding
  exact ⟨initial, s₀, results, s', is, ⟨5⟩, r, hanswered, hall, hresults, hr, hpath, q, path, record, hq, hunder⟩

end GraphQL
