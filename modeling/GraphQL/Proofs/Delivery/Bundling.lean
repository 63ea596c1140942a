import GraphQL.Delivery.Bundle

/-!
# Bundling

A bundler waits for the next result of its source, for the expiry of its timer or for the end of the source, and any of those
that have come may be the one it goes on with.  `Runs` are all the ways in which this can go, moment after moment, whatever the
times are.  What stands after every moment (`Stands`) is kept by taking a result and by passing the open bundle on; so no result
is lost or repeated, and a bundle that is not full is passed on for one of four reasons (`Runs.bundled_without_loss`).

Gathering the results of a source on a clock is one such run (`BundleLimits.exists_runs`).
-/

namespace GraphQL

variable {ε α : Type}

/-- A member of a list with one more element at the end is that element, or it is a member of the list before it. -/
theorem concat_eq_append_cons {β : Type} {xs before after : List β} {x y : β} (h : xs ++ [x] = before ++ y :: after) :
    (xs = before ∧ x = y ∧ after = []) ∨ ∃ front, after = front ++ [x] ∧ xs = before ++ y :: front := by
  rcases List.eq_nil_or_concat after with rfl | ⟨front, last, rfl⟩
  · obtain ⟨hxs, hx⟩ := List.append_inj' h rfl
    exact .inl ⟨hxs, (List.cons.inj hx).1, rfl⟩
  · rw [List.concat_eq_append, ← List.cons_append, ← List.append_assoc] at h
    obtain ⟨hxs, hx⟩ := List.append_inj' h rfl
    exact .inr ⟨front, by rw [List.concat_eq_append, (List.cons.inj hx).1], hxs⟩

/-! ### Bundles -/

namespace Bundle

/-- The results, in their order. -/
def contents : Bundle ε α → List (Except ε α)
  | data _ items => items.map .ok
  | errors _ es => es.map .error

variable {b b' : Bundle ε α} {bs : List (Bundle ε α)} {r : Except ε α}

@[simp] theorem length_contents (b : Bundle ε α) : b.contents.length = b.length := by
  cases b <;> simp [contents, length]

@[simp] theorem contents_first (start : Nat) (r : Except ε α) : (first start r).contents = [r] := by
  cases r <;> rfl

@[simp] theorem length_first (start : Nat) (r : Except ε α) : (first start r).length = 1 := by
  cases r <;> rfl

@[simp] theorem start_first (start : Nat) (r : Except ε α) : (first start r).start = start := by
  cases r <;> rfl

theorem isOk_of_mem_contents (h : r ∈ b.contents) : r.isOk = b.isData := by
  cases b with
  | data start items =>
    obtain ⟨item, -, rfl⟩ := List.mem_map.1 h
    rfl
  | errors start es =>
    obtain ⟨e, -, rfl⟩ := List.mem_map.1 h
    rfl

theorem push?_eq_some (h : b.push? r = some b') : b'.start = b.start ∧ b'.contents = b.contents ++ [r] := by
  cases b <;> cases r <;> cases h <;> exact ⟨rfl, List.map_append⟩

/-- A result that finds no place is of the other kind. -/
theorem push?_eq_none (h : b.push? r = none) : r.isOk ≠ b.isData := by
  cases b <;> cases r <;> simp_all [push?, isData, Except.isOk, Except.toBool]

/-- Each bundle starts at the number of results in those before it. -/
def Consecutive (bs : List (Bundle ε α)) : Prop :=
  ∀ front b back, bs = front ++ b :: back → b.start = (front.flatMap contents).length

theorem consecutive_concat : Consecutive (bs ++ [b]) ↔ Consecutive bs ∧ b.start = (bs.flatMap contents).length := by
  constructor
  · intro h
    refine ⟨fun front x back hsplit => h front x (back ++ [b]) (by simp [hsplit]), h bs b [] rfl⟩
  · rintro ⟨hbs, hb⟩ front x back hsplit
    obtain ⟨rfl, rfl, -⟩ | ⟨back, -, hsplit⟩ := concat_eq_append_cons hsplit
    · exact hb
    · exact hbs front x back hsplit

end Bundle

open GraphQL.Bundle

theorem BundleLimits.isEnough_iff {limits : BundleLimits} {seen : Nat} :
    limits.isEnough seen = true ↔ ∃ total, limits.total = some total ∧ total ≤ seen := by
  unfold isEnough
  cases limits.total <;> simp

namespace Bundler

/-! ### One step -/

variable {limits : BundleLimits} {b : Bundler ε α} {time : Nat} {r : Except ε α}

/-- All that can happen when a result is put into a bundle. -/
theorem enter_cases (limits : BundleLimits) (b : Bundler ε α) (time : Nat) (r : Except ε α) :
    (∃ opened bundle, b.opened = some opened ∧ opened.push? r = some bundle ∧
      b.enter limits time r = (bundle, b.deadline, [])) ∨
    (∀ opened, b.opened = some opened → r.isOk ≠ opened.isData) ∧
      b.enter limits time r = (.first b.seen r, limits.interval.map (time + ·), b.opened.toList) := by
  unfold enter
  cases hbind : b.opened.bind fun opened => opened.push? r with
  | some bundle =>
    obtain ⟨opened, hopened, hpush⟩ := Option.bind_eq_some_iff.1 hbind
    exact .inl ⟨opened, bundle, hopened, hpush, rfl⟩
  | none => exact .inr ⟨fun opened hopened => push?_eq_none (Option.bind_eq_none_iff.1 hbind opened hopened), rfl⟩

/-- All that can happen with the bundle that a result was put into. -/
theorem take_cases {bundle : Bundle ε α} {deadline : Option Nat} {passed : List (Bundle ε α)}
    (h : b.enter limits time r = (bundle, deadline, passed)) :
    bundle.length < max limits.size 1 ∧ limits.isEnough (b.seen + 1) = false ∧
      b.take limits time r = (⟨some bundle, deadline, b.seen + 1, false⟩, passed) ∨
    (max limits.size 1 ≤ bundle.length ∨ limits.isEnough (b.seen + 1) = true) ∧
      b.take limits time r = (⟨none, none, b.seen + 1, limits.isEnough (b.seen + 1)⟩, passed ++ [bundle]) := by
  unfold take
  rw [h]
  dsimp only
  by_cases hpass : (limits.isFull bundle || limits.isEnough (b.seen + 1)) = true
  · rw [if_pos hpass]
    exact .inr ⟨by simpa [BundleLimits.isFull] using hpass, rfl⟩
  · rw [if_neg hpass]
    simp only [BundleLimits.isFull, Bool.or_eq_true, decide_eq_true_eq, not_or, Nat.not_le, Bool.not_eq_true] at hpass
    exact .inl ⟨hpass.1, hpass.2, rfl⟩

theorem step_result (hwaits : b.ended = false) : b.step limits (.result time r) = b.take limits time r := by
  rw [step, hwaits, if_neg Bool.false_ne_true]

theorem step_expired (hwaits : b.ended = false) :
    b.step limits .expired = (⟨none, none, b.seen, false⟩, b.opened.toList) := by
  rw [step, hwaits, if_neg Bool.false_ne_true, flush, hwaits]

theorem step_ended (hwaits : b.ended = false) :
    b.step limits .ended = (⟨none, none, b.seen, true⟩, b.opened.toList) := by
  rw [step, hwaits, if_neg Bool.false_ne_true, flush]

/-! ### Runs -/

/-- A bundler that waited goes on: when that is, with what, and the bundles that it passes on. -/
structure Moment (ε α : Type) where
  time : Nat
  signal : BundlerSignal ε α
  passed : List (Bundle ε α)

/-- The result that is taken, and when. -/
def Moment.arrival? (m : Moment ε α) : Option (Nat × Except ε α) :=
  match m.signal with
  | .result _ r => some (m.time, r)
  | _ => none

/-- The results that were taken, and when. -/
def arrivals (ms : List (Moment ε α)) : List (Nat × Except ε α) := ms.filterMap Moment.arrival?

/-- The results that were taken. -/
def taken (ms : List (Moment ε α)) : List (Except ε α) := (arrivals ms).map Prod.snd

section

variable (ms : List (Moment ε α)) (time : Nat) (r : Except ε α) (passed : List (Bundle ε α))

@[simp] theorem arrivals_concat_result (opening : Nat) :
    arrivals (ms ++ [⟨time, .result opening r, passed⟩]) = arrivals ms ++ [(time, r)] := by
  simp [arrivals, Moment.arrival?]

@[simp] theorem arrivals_concat_expired : arrivals (ms ++ [⟨time, .expired, passed⟩]) = arrivals ms := by
  simp [arrivals, Moment.arrival?]

@[simp] theorem arrivals_concat_ended : arrivals (ms ++ [⟨time, .ended, passed⟩]) = arrivals ms := by
  simp [arrivals, Moment.arrival?]

@[simp] theorem taken_concat_result (opening : Nat) : taken (ms ++ [⟨time, .result opening r, passed⟩]) = taken ms ++ [r] := by
  simp [taken]

@[simp] theorem taken_concat_expired : taken (ms ++ [⟨time, .expired, passed⟩]) = taken ms := by
  simp [taken]

@[simp] theorem taken_concat_ended : taken (ms ++ [⟨time, .ended, passed⟩]) = taken ms := by
  simp [taken]

end

/-- The bundles that were passed on. -/
def passedOn (ms : List (Moment ε α)) : List (Bundle ε α) := ms.flatMap Moment.passed

/-- What can make a bundler go on that waits for a source.  The timer may be slow, and a result or the end may come first though
it has expired.  A result that is of the other kind opens its bundle when the one before it was passed on, which may last. -/
inductive Comes (source : List (Except ε α)) (ms : List (Moment ε α)) (b : Bundler ε α) (time : Nat) :
    BundlerSignal ε α → Prop
  | result {opening r} (hnext : taken ms ++ [r] <+: source) (hlater : time ≤ opening) :
      Comes source ms b time (.result opening r)
  | expired {deadline} (harmed : b.deadline = some deadline) (hpast : deadline ≤ time) : Comes source ms b time .expired
  | ended (hall : taken ms = source) : Comes source ms b time .ended

/-- All that a bundler can go through with a source, and where it then stands. -/
inductive Runs (limits : BundleLimits) (source : List (Except ε α)) : List (Moment ε α) → Bundler ε α → Prop
  | start : Runs limits source [] {}
  | step {ms b time signal} (h : Runs limits source ms b) (hwaits : b.ended = false) (hcomes : Comes source ms b time signal) :
      Runs limits source (ms ++ [⟨time, signal, (b.step limits signal).2⟩]) (b.step limits signal).1

variable {source : List (Except ε α)} {ms before after : List (Moment ε α)} {m : Moment ε α} {signal : BundlerSignal ε α}

/-- Every moment of a run is a step from where the moments before it lead. -/
theorem Runs.split (h : Runs limits source (before ++ m :: after) b) :
    ∃ b', Runs limits source before b' ∧ b'.ended = false ∧ Comes source before b' m.time m.signal ∧
      m.passed = (b'.step limits m.signal).2 := by
  generalize hms : before ++ m :: after = ms at h
  induction h generalizing after with
  | start => exact absurd hms (by simp)
  | @step ms b time signal h hwaits hcomes ih =>
    obtain ⟨rfl, rfl, -⟩ | ⟨after, -, hms⟩ := concat_eq_append_cons hms.symm
    · exact ⟨b, h, hwaits, hcomes, rfl⟩
    · exact ih hms.symm

/-! ### What stands after every moment -/

/-- The bundles that were passed on, and the open one. -/
def bundles (ms : List (Moment ε α)) (b : Bundler ε α) : List (Bundle ε α) := passedOn ms ++ b.opened.toList

/-- Where a bundler stands after some moments. -/
structure Stands (limits : BundleLimits) (ms : List (Moment ε α)) (b : Bundler ε α) : Prop where
  seen : b.seen = (taken ms).length
  contents : (bundles ms b).flatMap Bundle.contents = taken ms
  consecutive : Consecutive (bundles ms b)
  sizes : ∀ bundle ∈ bundles ms b, 0 < bundle.length ∧ bundle.length ≤ max limits.size 1
  opened : ∀ bundle, b.opened = some bundle → bundle.length < max limits.size 1
  /-- The timer runs from the time at which the open bundle was opened, which is not before its first result. -/
  armed : ∀ bundle, b.opened = some bundle →
    ∃ first opening, (arrivals ms)[bundle.start]? = some first ∧ first.1 ≤ opening ∧
      b.deadline = limits.interval.map (opening + ·)
  unarmed : b.opened = none → b.deadline = none
  ended : b.ended = true → b.opened = none

theorem stands_start (limits : BundleLimits) : Stands limits [] ({} : Bundler ε α) where
  seen := rfl
  contents := rfl
  consecutive := fun front bundle back h => by simp [bundles, passedOn] at h
  sizes := fun bundle h => by simp [bundles, passedOn] at h
  opened := fun bundle h => nomatch h
  armed := fun bundle h => nomatch h
  unarmed := fun _ => rfl
  ended := fun h => nomatch h

theorem passedOn_concat (ms : List (Moment ε α)) (m : Moment ε α) : passedOn (ms ++ [m]) = passedOn ms ++ m.passed := by
  simp [passedOn]

/-- Passing the open bundle on keeps what stands. -/
theorem Stands.flush (h : Stands limits ms b) (harrivals : arrivals (ms ++ [⟨time, signal, b.opened.toList⟩]) = arrivals ms)
    (finished : Bool) : Stands limits (ms ++ [⟨time, signal, b.opened.toList⟩]) ⟨none, none, b.seen, finished⟩ := by
  have hbundles : bundles (ms ++ [⟨time, signal, b.opened.toList⟩]) ⟨none, none, b.seen, finished⟩ = bundles ms b := by
    simp [bundles, passedOn_concat]
  exact
    { seen := by rw [taken, harrivals]; exact h.seen
      contents := by rw [taken, harrivals, hbundles]; exact h.contents
      consecutive := by rw [hbundles]; exact h.consecutive
      sizes := by rw [hbundles]; exact h.sizes
      opened := fun bundle h => nomatch h
      armed := fun bundle h => nomatch h
      unarmed := fun _ => rfl
      ended := fun _ => rfl }

/-- Putting a result into a bundle keeps what stands, but the bundle may be full then. -/
theorem Stands.enter {bundle : Bundle ε α} {deadline : Option Nat} {passed : List (Bundle ε α)} {opening : Nat}
    (h : Stands limits ms b) (hlater : time ≤ opening) (henter : b.enter limits opening r = (bundle, deadline, passed)) :
    (passedOn ms ++ passed ++ [bundle]).flatMap Bundle.contents = taken ms ++ [r] ∧
    Consecutive (passedOn ms ++ passed ++ [bundle]) ∧
    (∀ x ∈ passedOn ms ++ passed ++ [bundle], 0 < x.length ∧ x.length ≤ max limits.size 1) ∧
    ∃ first opening, (arrivals ms ++ [(time, r)])[bundle.start]? = some first ∧ first.1 ≤ opening ∧
      deadline = limits.interval.map (opening + ·) := by
  obtain ⟨opened, pushed, hopened, hpush, heq⟩ | ⟨-, heq⟩ := enter_cases limits b opening r
  · obtain ⟨rfl, rfl, rfl⟩ : pushed = bundle ∧ b.deadline = deadline ∧ [] = passed := by simpa [heq] using henter
    obtain ⟨hstart, hcontents⟩ := push?_eq_some hpush
    have hbundles : bundles ms b = passedOn ms ++ [opened] := by simp [bundles, hopened]
    have hall := h.contents
    have hconsecutive := h.consecutive
    have hsizes := h.sizes
    rw [hbundles] at hall hconsecutive hsizes
    rw [List.append_nil]
    refine ⟨?_, ?_, ?_, ?_⟩
    · rw [← hall]
      simp [hcontents]
    · rw [consecutive_concat] at hconsecutive ⊢
      rwa [hstart]
    · have hlength : pushed.length = opened.length + 1 := by simp [← length_contents, hcontents]
      have hroom := h.opened opened hopened
      rw [List.forall_mem_append] at hsizes ⊢
      exact ⟨hsizes.1, List.forall_mem_singleton.2 ⟨by omega, by omega⟩⟩
    · obtain ⟨first, opening, hfirst, hle, hdeadline⟩ := h.armed opened hopened
      obtain ⟨hlt, -⟩ := List.getElem?_eq_some_iff.1 hfirst
      exact ⟨first, opening, by rw [hstart, List.getElem?_append_left hlt, hfirst], hle, hdeadline⟩
  · obtain ⟨rfl, rfl, rfl⟩ : Bundle.first b.seen r = bundle ∧ limits.interval.map (opening + ·) = deadline ∧
        b.opened.toList = passed := by simpa [heq] using henter
    refine ⟨?_, ?_, ?_, ?_⟩
    · rw [List.flatMap_append, show passedOn ms ++ b.opened.toList = bundles ms b from rfl, h.contents]
      simp
    · rw [consecutive_concat, start_first, h.seen, ← h.contents]
      exact ⟨h.consecutive, rfl⟩
    · rw [List.forall_mem_append]
      rw [List.forall_mem_singleton, length_first]
      exact ⟨h.sizes, Nat.one_pos, Nat.le_max_right _ _⟩
    · have hseen : b.seen = (arrivals ms).length := by rw [h.seen, taken, List.length_map]
      exact ⟨(time, r), opening, by simp [hseen], hlater, rfl⟩

/-- Taking a result keeps what stands. -/
theorem Stands.take {opening : Nat} (h : Stands limits ms b) (hlater : time ≤ opening) :
    Stands limits (ms ++ [⟨time, .result opening r, (b.take limits opening r).2⟩]) (b.take limits opening r).1 := by
  obtain ⟨⟨bundle, deadline, passed⟩, henter⟩ : ∃ entered, b.enter limits opening r = entered := ⟨_, rfl⟩
  obtain ⟨hcontents, hconsecutive, hsizes, harmed⟩ := h.enter hlater henter
  have hseen : b.seen + 1 = (taken ms ++ [r]).length := by simp [h.seen]
  obtain ⟨hroom, -, heq⟩ | ⟨-, heq⟩ := take_cases henter <;> rw [heq]
  · have hbundles : bundles (ms ++ [⟨time, .result opening r, passed⟩]) ⟨some bundle, deadline, b.seen + 1, false⟩ =
        passedOn ms ++ passed ++ [bundle] := by
      simp [bundles, passedOn_concat]
    exact
      { seen := by rw [taken_concat_result]; exact hseen
        contents := by rw [taken_concat_result, hbundles]; exact hcontents
        consecutive := by rw [hbundles]; exact hconsecutive
        sizes := by rw [hbundles]; exact hsizes
        opened := fun opened h => Option.some.inj h ▸ hroom
        armed := fun opened h => by rw [arrivals_concat_result, ← Option.some.inj h]; exact harmed
        unarmed := fun h => nomatch h
        ended := fun h => nomatch h }
  · have hbundles : bundles (ms ++ [⟨time, .result opening r, passed ++ [bundle]⟩])
        ⟨none, none, b.seen + 1, limits.isEnough (b.seen + 1)⟩ = passedOn ms ++ passed ++ [bundle] := by
      simp [bundles, passedOn_concat]
    exact
      { seen := by rw [taken_concat_result]; exact hseen
        contents := by rw [taken_concat_result, hbundles]; exact hcontents
        consecutive := by rw [hbundles]; exact hconsecutive
        sizes := by rw [hbundles]; exact hsizes
        opened := fun opened h => nomatch h
        armed := fun opened h => nomatch h
        unarmed := fun _ => rfl
        ended := fun _ => rfl }

theorem Runs.stands (h : Runs limits source ms b) : Stands limits ms b := by
  induction h with
  | start => exact stands_start limits
  | @step ms b time signal h hwaits hcomes ih =>
    cases hcomes with
    | result _ hlater =>
      rw [step_result hwaits]
      exact ih.take hlater
    | expired =>
      rw [step_expired hwaits]
      exact ih.flush (arrivals_concat_expired ..) false
    | ended =>
      rw [step_ended hwaits]
      exact ih.flush (arrivals_concat_ended ..) true

/-! ### Why bundles are passed on -/

/-- Why a bundle that is not full is passed on at a moment: a result of the other kind has come, the bundle has been open for
the interval since its first result, all results that are wanted were taken, or the source has ended. -/
inductive Closes (limits : BundleLimits) (before : List (Moment ε α)) (m : Moment ε α) (bundle : Bundle ε α) : Prop
  | otherKind {opening r} (hsignal : m.signal = .result opening r) (hkind : r.isOk ≠ bundle.isData)
  | expired {interval first} (hsignal : m.signal = .expired) (hinterval : limits.interval = some interval)
      (hfirst : (arrivals before)[bundle.start]? = some first) (hpast : first.1 + interval ≤ m.time)
  | enough {opening r total} (hsignal : m.signal = .result opening r) (htotal : limits.total = some total)
      (hreached : total ≤ (taken before).length + 1)
  | ended (hsignal : m.signal = .ended)

/-- A bundle that is not full is passed on for a reason. -/
theorem Runs.closes {bundle : Bundle ε α} (h : Runs limits source (before ++ m :: after) b) (hmem : bundle ∈ m.passed)
    (hroom : bundle.length < max limits.size 1) : Closes limits before m bundle := by
  obtain ⟨b', h', hwaits, hcomes, hpassed⟩ := h.split
  have hstands := h'.stands
  rw [hpassed] at hmem
  cases hsignal : m.signal with
  | result opening r =>
    rw [hsignal, step_result hwaits] at hmem
    obtain ⟨⟨entered, deadline, passed⟩, henter⟩ : ∃ entered, b'.enter limits opening r = entered := ⟨_, rfl⟩
    have hother (hmem : bundle ∈ passed) : Closes limits before m bundle := by
      obtain ⟨opened, pushed, -, -, heq⟩ | ⟨hkind, heq⟩ := enter_cases limits b' opening r
      · obtain rfl : passed = [] := by simpa [henter] using congrArg (·.2.2) heq
        cases hmem
      · obtain rfl : passed = b'.opened.toList := by simpa [henter] using congrArg (·.2.2) heq
        exact .otherKind hsignal (hkind bundle (Option.mem_toList.1 hmem))
    obtain ⟨-, -, heq⟩ | ⟨hfull, heq⟩ := take_cases henter <;> rw [heq] at hmem
    · exact hother hmem
    · rcases List.mem_append.1 hmem with hmem | hmem
      · exact hother hmem
      · obtain rfl := List.mem_singleton.1 hmem
        have henough := hfull.resolve_left (Nat.not_le.2 hroom)
        obtain ⟨total, htotal, hle⟩ := BundleLimits.isEnough_iff.1 henough
        exact .enough hsignal htotal (hstands.seen ▸ hle)
  | expired =>
    rw [hsignal, step_expired hwaits] at hmem
    rw [hsignal] at hcomes
    have hopened : b'.opened = some bundle := Option.mem_toList.1 hmem
    obtain ⟨first, opening, hfirst, hlater, hdeadline⟩ := hstands.armed bundle hopened
    cases hcomes with
    | expired harmed hpast =>
      obtain ⟨interval, hinterval, rfl⟩ := Option.map_eq_some_iff.1 (hdeadline.symm.trans harmed)
      exact .expired hsignal hinterval hfirst (by omega)
  | ended => exact .ended hsignal

theorem Runs.isSome_deadline_iff (h : Runs limits source ms b) :
    b.deadline.isSome = true ↔ limits.interval.isSome = true ∧ b.opened.isSome = true := by
  cases hopened : b.opened with
  | none => simp [h.stands.unarmed hopened]
  | some bundle =>
    obtain ⟨first, opening, -, -, hdeadline⟩ := h.stands.armed bundle hopened
    simp [hdeadline]

theorem Runs.taken_isPrefix (h : Runs limits source ms b) : taken ms <+: source := by
  induction h with
  | start => exact List.nil_prefix
  | @step ms b time signal h hwaits hcomes ih =>
    cases hcomes with
    | result hnext => rwa [taken_concat_result]
    | expired => rwa [taken_concat_expired]
    | ended => rwa [taken_concat_ended]

/-- At the end all that was taken has been passed on. -/
theorem Runs.contents_passedOn (h : Runs limits source ms b) (hended : b.ended = true) :
    (passedOn ms).flatMap Bundle.contents = taken ms := by
  have hstands := h.stands
  simpa [bundles, hstands.ended hended] using hstands.contents

/-- Whatever a bundler goes through, no result is lost or repeated, and bundles are passed on only where the limits allow it. -/
theorem Runs.bundled_without_loss (h : Runs limits source ms b) :
    (taken ms <+: source ∧ (passedOn ms ++ b.opened.toList).flatMap Bundle.contents = taken ms ∧
      (b.ended = true → (passedOn ms).flatMap Bundle.contents = taken ms)) ∧
    Consecutive (passedOn ms) ∧
    (∀ bundle ∈ passedOn ms, bundle.contents ≠ [] ∧ bundle.contents.length ≤ max limits.size 1 ∧
      ∀ r ∈ bundle.contents, r.isOk = bundle.isData) ∧
    (∀ before m after, ms = before ++ m :: after → ∀ bundle ∈ m.passed, bundle.contents.length < max limits.size 1 →
      Closes limits before m bundle) ∧
    (b.deadline.isSome = true ↔ limits.interval.isSome = true ∧ b.opened.isSome = true) := by
  have hstands := h.stands
  refine ⟨⟨h.taken_isPrefix, hstands.contents, h.contents_passedOn⟩, ?_, fun bundle hmem => ?_, ?_, h.isSome_deadline_iff⟩
  · intro front bundle back hsplit
    exact hstands.consecutive front bundle (back ++ b.opened.toList) (by simp [bundles, hsplit])
  · obtain ⟨hpos, hle⟩ := hstands.sizes bundle (List.mem_append_left _ hmem)
    rw [← length_contents] at hpos hle
    exact ⟨List.length_pos_iff.1 hpos, hle, fun r => isOk_of_mem_contents⟩
  · rintro before m after rfl bundle hmem hroom
    rw [length_contents] at hroom
    exact h.closes hmem hroom

/-- Limits of a bundler with a timer. -/
def windowLimits : BundleLimits := ⟨3, some 10, none⟩

/-- A run in which the timer is slow and the bundle with the error is not taken up at once. -/
def windowMoments : List (Moment String Nat) :=
  [⟨0, .result 0 (.ok 1), []⟩, ⟨4, .result 4 (.ok 2), []⟩, ⟨12, .expired, [.data 0 [1, 2]]⟩,
    ⟨13, .result 13 (.error "no"), []⟩, ⟨14, .result 16 (.ok 3), [.errors 2 ["no"]]⟩, ⟨20, .ended, [.data 3 [3]]⟩]

theorem windowMoments_bundled :
    Runs windowLimits [.ok 1, .ok 2, .error "no", .ok 3] windowMoments ⟨none, none, 4, true⟩ ∧
    (passedOn windowMoments).flatMap Bundle.contents = taken windowMoments ∧ Consecutive (passedOn windowMoments) ∧
    Closes windowLimits (windowMoments.take 2) ⟨12, .expired, [.data 0 [1, 2]]⟩ (.data 0 [1, 2]) := by
  let source : List (Except String Nat) := [.ok 1, .ok 2, .error "no", .ok 3]
  have h₁ : Runs windowLimits source (windowMoments.take 1) ⟨some (.data 0 [1]), some 10, 1, false⟩ :=
    Runs.step .start rfl (.result ⟨source.drop 1, rfl⟩ (Nat.le_refl 0))
  have h₂ : Runs windowLimits source (windowMoments.take 2) ⟨some (.data 0 [1, 2]), some 10, 2, false⟩ :=
    h₁.step rfl (.result ⟨source.drop 2, rfl⟩ (Nat.le_refl 4))
  have h₃ : Runs windowLimits source (windowMoments.take 3) ⟨none, none, 2, false⟩ :=
    h₂.step rfl (.expired rfl (by decide : 10 ≤ 12))
  have h₄ : Runs windowLimits source (windowMoments.take 4) ⟨some (.errors 2 ["no"]), some 23, 3, false⟩ :=
    h₃.step rfl (.result ⟨source.drop 3, rfl⟩ (Nat.le_refl 13))
  have h₅ : Runs windowLimits source (windowMoments.take 5) ⟨some (.data 3 [3]), some 26, 4, false⟩ :=
    h₄.step rfl (.result ⟨source.drop 4, rfl⟩ (by decide : 14 ≤ 16))
  have h₆ : Runs windowLimits source windowMoments ⟨none, none, 4, true⟩ := h₅.step rfl (.ended rfl)
  obtain ⟨⟨-, -, hall⟩, hconsecutive, -, hcloses, -⟩ := h₆.bundled_without_loss
  exact ⟨h₆, hall rfl, hconsecutive, hcloses _ _ _ rfl _ (by simp) (by decide)⟩

end Bundler

/-! ### On a clock -/

namespace SourceStep

/-- The results among steps, and when they come if the steps start at a time. -/
def arrivals : (time : Nat) → List (SourceStep ε α) → List (Nat × Except ε α)
  | _, [] => []
  | time, wait ticks :: rest => arrivals (time + ticks) rest
  | time, result r :: rest => (time, r) :: arrivals time rest

/-- The time after steps that start at a time. -/
def timeAfter : (time : Nat) → List (SourceStep ε α) → Nat
  | time, [] => time
  | time, wait ticks :: rest => timeAfter (time + ticks) rest
  | time, result _ :: rest => timeAfter time rest

end SourceStep

namespace Source

/-- The results, and when they come. -/
def arrivals (source : Source ε α) : List (Nat × Except ε α) := SourceStep.arrivals 0 source.steps

/-- The time after the last step. -/
def finish (source : Source ε α) : Nat := SourceStep.timeAfter 0 source.steps

end Source

namespace Bundler

/-- The bundles that are passed on at a moment, with its time. -/
def Moment.timed (m : Moment ε α) : List (Nat × Bundle ε α) := m.passed.map (m.time, ·)

/-- How a run on a clock stops: with the last result that is wanted, with the end of the source, or not at all. -/
inductive Stops (hangs : Bool) (finish : Nat) (all : List (Nat × Except ε α)) :
    List (Moment ε α) → Bundler ε α → Option Nat → Prop
  | enough {ms m b r} (hsignal : m.signal = .result m.time r) (hended : b.ended = true) :
      Stops hangs finish all (ms ++ [m]) b (some m.time)
  | ended {ms m b} (hsignal : m.signal = .ended) (hended : b.ended = true) (hhangs : hangs = false)
      (hall : arrivals ms = all) : Stops hangs finish all (ms ++ [m]) b (some finish)
  | hangs {ms b} (hwaits : b.ended = false) (hunarmed : b.deadline = none) (hhangs : hangs = true)
      (hall : arrivals ms = all) : Stops hangs finish all ms b none

variable {limits : BundleLimits} {b : Bundler ε α} {time finish : Nat} {ms : List (Moment ε α)} {hangs : Bool}
  {steps : List (SourceStep ε α)} {all : List (Nat × Except ε α)}

/-- Gathering what is left of a source goes on with a run. -/
theorem Runs.gather (h : Runs limits (all.map Prod.snd) ms b) (hwaits : b.ended = false)
    (hall : arrivals ms ++ SourceStep.arrivals time steps = all) (hfinish : SourceStep.timeAfter time steps = finish) :
    ∃ ms' b', Runs limits (all.map Prod.snd) (ms ++ ms') b' ∧ arrivals (ms ++ ms') <+: all ∧
      (limits.gather hangs b time steps).bundles = ms'.flatMap Moment.timed ∧
      Stops hangs finish all (ms ++ ms') b' (limits.gather hangs b time steps).stop := by
  induction steps generalizing ms b time with
  | nil =>
    have hall : arrivals ms = all := by simpa [SourceStep.arrivals] using hall
    have harrived : arrivals ms <+: all := hall ▸ List.prefix_rfl
    obtain rfl : time = finish := hfinish
    unfold BundleLimits.gather
    cases hangs with
    | true =>
      cases hdeadline : b.deadline with
      | none => exact ⟨[], b, by simpa using h, by simpa using harrived, rfl, by simpa using .hangs hwaits hdeadline rfl hall⟩
      | some deadline =>
        have hnext := h.step hwaits (.expired hdeadline (Nat.le_refl _))
        refine ⟨_, _, hnext, by simpa using harrived, ?_, .hangs ?_ ?_ rfl ?_⟩
        · simp [Bundling.after, Moment.timed]
        · rw [step_expired hwaits]
        · rw [step_expired hwaits]
        · rw [arrivals_concat_expired, hall]
    | false =>
      have hcomes : Comes (all.map Prod.snd) ms b time .ended := .ended (by rw [taken, hall])
      have hnext := h.step hwaits hcomes
      refine ⟨_, _, hnext, by simpa using harrived, ?_, .ended rfl ?_ rfl hall⟩
      · simp [Bundling.after, Moment.timed]
      · rw [step_ended hwaits]
  | cons s rest ih =>
    cases s with
    | wait ticks =>
      rw [BundleLimits.gather]
      cases hexpired : b.deadline.filter (· < time + ticks) with
      | none => exact ih h hwaits hall hfinish
      | some deadline =>
        obtain ⟨hdeadline, -⟩ := Option.filter_eq_some_iff.1 hexpired
        have hnext := h.step hwaits (.expired hdeadline (Nat.le_refl _))
        have hwaits' : (b.step limits .expired).1.ended = false := by rw [step_expired hwaits]
        obtain ⟨ms', b', hrun, harrived, hbundles, hstops⟩ := ih hnext hwaits' (by rwa [arrivals_concat_expired]) hfinish
        rw [← List.append_cons] at hrun harrived hstops
        refine ⟨_, b', hrun, harrived, ?_, hstops⟩
        rw [List.flatMap_cons, ← hbundles]
        rfl
    | result r =>
      rw [BundleLimits.gather]
      rw [SourceStep.arrivals, List.append_cons,
        ← arrivals_concat_result ms time r (b.step limits (.result time r)).2 time] at hall
      have hcomes : Comes (all.map Prod.snd) ms b time (.result time r) := by
        refine .result ?_ (Nat.le_refl _)
        rw [← hall]
        simp [taken]
      have hnext := h.step hwaits hcomes
      by_cases hended : (b.step limits (.result time r)).1.ended = true
      · dsimp only
        rw [if_pos hended]
        refine ⟨_, _, hnext, ?_, ?_, .enough rfl hended⟩
        · rw [← hall]
          exact List.prefix_append _ _
        · simp [Bundling.after, Moment.timed]
      · dsimp only
        rw [if_neg hended]
        obtain ⟨ms', b', hrun, harrived, hbundles, hstops⟩ := ih hnext (Bool.not_eq_true _ ▸ hended) hall hfinish
        rw [← List.append_cons] at hrun harrived hstops
        refine ⟨_, b', hrun, harrived, ?_, hstops⟩
        rw [List.flatMap_cons, ← hbundles]
        rfl

end Bundler

open Bundler

/-- Gathering the results of a source into bundles is a run. -/
theorem BundleLimits.exists_runs (limits : BundleLimits) (source : Source ε α) :
    ∃ ms b, Runs limits (source.arrivals.map Prod.snd) ms b ∧ arrivals ms <+: source.arrivals ∧
      (limits.bundle source).bundles = ms.flatMap Moment.timed ∧
      Stops source.hangs source.finish source.arrivals ms b (limits.bundle source).stop :=
  Runs.gather .start rfl rfl rfl

end GraphQL
