import GraphQL.Proofs.Delivery.Bundling

/-!
# Totals of bundlers

A bundler takes as many results as its total says, and ends with the last of them, whether or not the source goes on; only the
first result is taken whatever the total is (`BundleLimits.stops_at_total`).
-/

namespace GraphQL

open Bundler

variable {ε α : Type} {limits : BundleLimits}

namespace BundleLimits

/-- The results of a source that are taken: as many as the total says, but at least one. -/
def wanted {β : Type} (limits : BundleLimits) (results : List β) : List β :=
  match limits.total with
  | some total => results.take (max total 1)
  | none => results

/-- The result with which the total is reached. -/
def last? {β : Type} (limits : BundleLimits) (results : List β) : Option β :=
  limits.total.bind fun total => results[total - 1]?

variable {β : Type} {results : List β}

theorem wanted_eq_self (h : ∀ total, limits.total = some total → results.length < max total 1) :
    limits.wanted results = results := by
  unfold wanted
  cases htotal : limits.total with
  | none => rfl
  | some total => exact List.take_of_length_le (Nat.le_of_lt (h total htotal))

theorem last?_eq_none (h : ∀ total, limits.total = some total → results.length < max total 1) :
    limits.last? results = none := by
  unfold last?
  cases htotal : limits.total with
  | none => rfl
  | some total =>
    have hlt := h total htotal
    exact List.getElem?_eq_none (by omega)

end BundleLimits

namespace Bundler

variable {source : List (Except ε α)} {ms : List (Moment ε α)} {b : Bundler ε α} {time : Nat} {r : Except ε α}

theorem take_seen (limits : BundleLimits) (b : Bundler ε α) (time : Nat) (r : Except ε α) :
    (b.take limits time r).1.seen = b.seen + 1 ∧ (b.take limits time r).1.ended = limits.isEnough (b.seen + 1) := by
  obtain ⟨⟨bundle, deadline, passed⟩, henter⟩ : ∃ entered, b.enter limits time r = entered := ⟨_, rfl⟩
  obtain ⟨-, henough, heq⟩ | ⟨-, heq⟩ := take_cases henter
  · rw [heq, henough]
    exact ⟨rfl, rfl⟩
  · rw [heq]
    exact ⟨rfl, rfl⟩

/-- While a bundler waits it has taken less than it wants. -/
theorem Runs.taken_lt (h : Runs limits source ms b) (hwaits : b.ended = false) :
    ∀ total, limits.total = some total → (taken ms).length < max total 1 := by
  induction h with
  | start => exact fun total _ => Nat.lt_of_lt_of_le Nat.zero_lt_one (Nat.le_max_right total 1)
  | @step ms b time signal h hwaits' hcomes ih =>
    intro total htotal
    cases hcomes with
    | @result opening r =>
      rw [step_result hwaits', (take_seen limits b opening r).2] at hwaits
      have hnot : ¬ total ≤ b.seen + 1 := fun hle => by
        rw [BundleLimits.isEnough_iff.2 ⟨total, htotal, hle⟩] at hwaits
        cases hwaits
      rw [taken_concat_result, List.length_append, List.length_singleton, ← h.stands.seen]
      omega
    | expired =>
      rw [taken_concat_expired]
      exact ih hwaits' total htotal
    | ended =>
      rw [step_ended hwaits'] at hwaits
      cases hwaits

/-- The end of the source is the last moment of a run if it is the one that was added. -/
private theorem ended_concat_iff {m : Moment ε α} :
    (∃ front m', ms ++ [m] = front ++ [m'] ∧ m'.signal = .ended) ↔ m.signal = .ended := by
  constructor
  · rintro ⟨front, m', heq, hsignal⟩
    obtain rfl : m = m' := (List.cons.inj (List.append_inj' heq rfl).2).1
    exact hsignal
  · exact fun hsignal => ⟨ms, m, rfl, hsignal⟩

/-- A bundler ends as soon as it has taken all that it wants, and otherwise with its source. -/
theorem Runs.ended_iff (h : Runs limits source ms b) :
    b.ended = true ↔ (∃ total, limits.total = some total ∧ (taken ms).length = max total 1) ∨
      ∃ front m, ms = front ++ [m] ∧ m.signal = .ended := by
  cases h with
  | start =>
    refine ⟨Bool.noConfusion, ?_⟩
    rintro (⟨total, -, heq⟩ | ⟨front, m, heq, -⟩)
    · exact absurd heq (by simp [taken, arrivals]; omega)
    · exact absurd heq (by simp)
  | @step ms b time signal h hwaits hcomes =>
    have hlt := h.taken_lt hwaits
    rw [ended_concat_iff]
    cases hcomes with
    | @result opening r =>
      rw [step_result hwaits, (take_seen limits b opening r).2, BundleLimits.isEnough_iff, taken_concat_result,
        List.length_append, List.length_singleton, h.stands.seen]
      constructor
      · rintro ⟨total, htotal, hle⟩
        have := hlt total htotal
        exact .inl ⟨total, htotal, by omega⟩
      · rintro (⟨total, htotal, heq⟩ | hsignal)
        · exact ⟨total, htotal, by omega⟩
        · cases hsignal
    | expired =>
      rw [step_expired hwaits, taken_concat_expired]
      refine ⟨Bool.noConfusion, ?_⟩
      rintro (⟨total, htotal, heq⟩ | hsignal)
      · exact absurd heq (Nat.ne_of_lt (hlt total htotal))
      · cases hsignal
    | ended =>
      rw [step_ended hwaits]
      exact ⟨fun _ => .inr rfl, fun _ => rfl⟩

/-- A source that ends has fewer results than are wanted, and all were taken. -/
theorem Runs.source_ended {m : Moment ε α} (h : Runs limits source (ms ++ [m]) b) (hsignal : m.signal = .ended) :
    taken (ms ++ [m]) = source ∧ ∀ total, limits.total = some total → source.length < max total 1 := by
  obtain ⟨b', h', hwaits, hcomes, -⟩ := h.split
  obtain ⟨time, signal, passed⟩ := m
  obtain rfl : signal = .ended := hsignal
  cases hcomes with
  | ended hall => exact ⟨by rw [taken_concat_ended, hall], hall ▸ h'.taken_lt hwaits⟩

theorem Runs.taken_eq_wanted (h : Runs limits source ms b) (hended : b.ended = true) : taken ms = limits.wanted source := by
  obtain ⟨total, htotal, hlength⟩ | ⟨front, m, rfl, hsignal⟩ := h.ended_iff.1 hended
  · have htake := List.prefix_iff_eq_take.1 h.taken_isPrefix
    rw [hlength] at htake
    rw [BundleLimits.wanted, htotal]
    exact htake
  · obtain ⟨hall, hlt⟩ := h.source_ended hsignal
    rw [hall, BundleLimits.wanted_eq_self hlt]

theorem Runs.taken_isPrefix_wanted (h : Runs limits source ms b) : taken ms <+: limits.wanted source := by
  cases hended : b.ended with
  | true => exact h.taken_eq_wanted hended ▸ List.prefix_rfl
  | false =>
    have hlt := h.taken_lt hended
    unfold BundleLimits.wanted
    split
    · rename_i total htotal
      exact List.prefix_take_iff.2 ⟨h.taken_isPrefix, Nat.le_of_lt (hlt total htotal)⟩
    · exact h.taken_isPrefix

/-- The bundles with their times hold what the bundles hold. -/
theorem contents_timed (ms : List (Moment ε α)) :
    (ms.flatMap Moment.timed).flatMap (·.2.contents) = (passedOn ms).flatMap Bundle.contents := by
  simp [passedOn, Moment.timed, List.flatMap_assoc, List.flatMap_map]

/-- The result with which the total is reached is the last that was taken. -/
theorem Runs.last?_eq {arrived : List (Nat × Except ε α)} {m : Moment ε α} (h : Runs limits source (ms ++ [m]) b)
    (harrived : arrivals (ms ++ [m]) <+: arrived) (hsignal : m.signal = .result m.time r) (hended : b.ended = true) :
    limits.last? arrived = some (m.time, r) := by
  obtain ⟨total, htotal, hlength⟩ | hends := h.ended_iff.1 hended
  · have harrivals : arrivals (ms ++ [m]) = arrivals ms ++ [(m.time, r)] := by
      simp [arrivals, Moment.arrival?, hsignal]
    have hindex : total - 1 = (arrivals ms).length := by
      rw [taken, harrivals, List.length_map, List.length_append, List.length_singleton] at hlength
      omega
    obtain ⟨rest, rfl⟩ := harrived
    rw [BundleLimits.last?, htotal, Option.bind_some, harrivals, hindex]
    simp
  · rw [ended_concat_iff, hsignal] at hends
    cases hends

end Bundler

/-- Whatever a bundler goes through, it takes and passes on the first results up to its total, but at least one, and ends with
the last of them without waiting for another.  On a clock it ends when that comes, or else with the source, if that ends. -/
theorem BundleLimits.stops_at_total (limits : BundleLimits) :
    (∀ (source : List (Except ε α)) ms b, Runs limits source ms b →
      taken ms <+: limits.wanted source ∧
      (b.ended = true ↔ (∃ total, limits.total = some total ∧ (taken ms).length = max total 1) ∨
        ∃ front m, ms = front ++ [m] ∧ m.signal = .ended) ∧
      (b.ended = true →
        taken ms = limits.wanted source ∧ (passedOn ms).flatMap Bundle.contents = limits.wanted source)) ∧
    ∀ source : Source ε α,
      ((limits.bundle source).stop = match limits.last? source.arrivals with
        | some last => some last.1
        | none => if source.hangs then none else some source.finish) ∧
      ((limits.bundle source).stop.isSome = true →
        (limits.bundle source).bundles.flatMap (·.2.contents) = limits.wanted (source.arrivals.map Prod.snd)) := by
  refine ⟨fun source ms b h => ⟨h.taken_isPrefix_wanted, h.ended_iff, fun hended => ?_⟩, fun source => ?_⟩
  · have hwanted := h.taken_eq_wanted hended
    exact ⟨hwanted, (h.contents_passedOn hended).trans hwanted⟩
  · obtain ⟨ms, b, hrun, harrived, hbundles, hstops⟩ := limits.exists_runs source
    have hcontents (hended : b.ended = true) :
        (limits.bundle source).bundles.flatMap (·.2.contents) = limits.wanted (source.arrivals.map Prod.snd) := by
      rw [hbundles, contents_timed, hrun.contents_passedOn hended, hrun.taken_eq_wanted hended]
    generalize (limits.bundle source).stop = stop at hstops
    cases hstops with
    | enough hsignal hended =>
      rw [hrun.last?_eq harrived hsignal hended]
      exact ⟨rfl, fun _ => hcontents hended⟩
    | ended hsignal hended hhangs =>
      have hlt := (hrun.source_ended hsignal).2
      rw [List.length_map] at hlt
      rw [last?_eq_none hlt, hhangs]
      exact ⟨rfl, fun _ => hcontents hended⟩
    | hangs hwaits _ hhangs hall =>
      have hlt := hrun.taken_lt hwaits
      rw [taken, hall, List.length_map] at hlt
      rw [last?_eq_none hlt, hhangs]
      exact ⟨rfl, Bool.noConfusion⟩

/-- Limits with a total that is reached with a result of the other kind. -/
def pairLimits : BundleLimits := ⟨10, none, some 2⟩

/-- A source that has more results and does not end. -/
def openSource : Source String Nat :=
  ⟨[.wait 3, .result (.ok 1), .wait 4, .result (.error "no"), .wait 1, .result (.ok 3)], true⟩

theorem stopped_at_pair :
    Runs pairLimits [.ok 1, .error "no", .ok 3]
      [⟨3, .result 3 (.ok 1), []⟩, ⟨7, .result 7 (.error "no"), [.data 0 [1], .errors 1 ["no"]]⟩] ⟨none, none, 2, true⟩ ∧
    (([.data 0 [1], .errors 1 ["no"]] : List (Bundle String Nat)).flatMap Bundle.contents =
      pairLimits.wanted [.ok 1, .error "no", .ok 3]) ∧
    (pairLimits.bundle openSource).stop = some 7 ∧
    (pairLimits.bundle openSource).bundles.flatMap (·.2.contents) = [.ok 1, .error "no"] := by
  let source : List (Except String Nat) := [.ok 1, .error "no", .ok 3]
  have h₁ : Runs pairLimits source [⟨3, .result 3 (.ok 1), []⟩] ⟨some (.data 0 [1]), none, 1, false⟩ :=
    Runs.step .start rfl (.result ⟨source.drop 1, rfl⟩ (Nat.le_refl 3))
  have h₂ : Runs pairLimits source
      [⟨3, .result 3 (.ok 1), []⟩, ⟨7, .result 7 (.error "no"), [.data 0 [1], .errors 1 ["no"]]⟩] ⟨none, none, 2, true⟩ :=
    h₁.step rfl (.result ⟨source.drop 2, rfl⟩ (Nat.le_refl 7))
  obtain ⟨hruns, hclock⟩ := BundleLimits.stops_at_total (ε := String) (α := Nat) pairLimits
  obtain ⟨hstop, hcontents⟩ := hclock openSource
  exact ⟨h₂, ((hruns source _ _ h₂).2.2 rfl).2, hstop, hcontents rfl⟩

/-- With a total of zero the first result is taken all the same, and a source that does not end is waited for. -/
theorem taken_beyond_zero :
    ((⟨10, none, some 0⟩ : BundleLimits).bundle (⟨[.result (.ok 1)], false⟩ : Source String Nat)).bundles.flatMap
        (·.2.contents) = [.ok 1] ∧
      ((⟨[.result (.ok 1)], false⟩ : Source String Nat).arrivals.map Prod.snd).take 0 = [] ∧
    ((⟨10, none, some 0⟩ : BundleLimits).bundle (⟨[], true⟩ : Source String Nat)).stop = none :=
  ⟨rfl, rfl, rfl⟩

end GraphQL
