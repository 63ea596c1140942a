import GraphQL.Proofs.Execution.Nesting
import GraphQL.Proofs.Meaning.Reported
import GraphQL.Proofs.Meaning.Streams
import Mathlib.Data.List.Infix
import Mathlib.Logic.Relation

/-!
# What surrounds an entry

What is asked for inside is found in the value, unless a place on the way is null because of an error
(`Asked.Leads.found`).  So an entry fits in what was brought for its surroundings, the fields or the item inside of which
it is asked for (`Ledger.Surrounds.fits`).  An entry is brought into the initial data after the entries that surround it,
one after the other, if all of them were sent and no place of an entry is null in what surrounds it
(`PullsAll.assembled`).
-/

namespace GraphQL

open Execution Stage

variable {c : ExecutionContext} {a b : Asked} {v w : Json} {path : Path} {steps : List PathSegment}

/-! ### What is asked for inside is found -/

namespace Asked

/-- The child of a part is found one step further. -/
theorem Part.at?_child {shape : Shape} {chs : List Child} {i : Nat} {ch : Child} {step : PathSegment}
    (hpart : (gather shape chs).Part c v (.child ch) w) (hstands : (gather shape chs).StandsAt path)
    (hg : (gather shape chs).IsGrounded) (h : Settles c (.gather shape chs) (.ok v)) (hchild : chs[i]? = some ch)
    (hstep : shape.segment? i = some step) : (Asked.child ch).StandsAt (path.below [step]) ∧ v.at? [step] = some w := by
  obtain ⟨step', hstep', hch⟩ := hstands.2 i ch hchild
  obtain rfl := Option.some.inj (hstep.symm.trans hstep')
  obtain ⟨steps, hch', hat⟩ := hpart.standsAt hstands hg h
  -- the place of the child tells where it is found
  have hchild' : ch.StandsAt (path.below steps) := hch'
  obtain rfl := Path.below_inj.1 (hch.1.symm.trans hchild'.1)
  exact ⟨hch, hat⟩

/-- A child of what is put together is a part of it. -/
theorem exists_part_of_getElem? {shape : Shape} {chs : List Child} {i : Nat} {ch : Child}
    (h : Settles c (.gather shape chs) (.ok v)) (hg : (gather shape chs).IsGrounded) (hchild : chs[i]? = some ch) :
    ∃ w, (gather shape chs).Part c v (child ch) w := by
  obtain ⟨values, -, hparts⟩ := h.exposes hg
  obtain ⟨hi, rfl⟩ := List.getElem?_eq_some_iff.1 hchild
  exact ⟨_, hparts.get hi (hparts.length_eq ▸ hi)⟩

/-- What is asked for inside is found in the value at the end of the steps. -/
structure FoundAt (c : ExecutionContext) (a : Asked) (path : Path) (v : Json) (steps : List PathSegment) (b : Asked)
    (w : Json) : Prop where
  at? : v.at? steps = some w
  grounded : b.IsGrounded
  stands : b.StandsAt (path.below steps)
  settles : Settles c b (.ok w)
  /-- A value that is null by itself does not stand in the child that it is the value of. -/
  held : a.Holds c v b w ∨ w = .null ∧ ∃ type place x, b = .value type place x

namespace FoundAt

theorem holds (h : a.FoundAt c path v steps b w) (hb : ∀ type place x, b = .value type place x → w ≠ .null) :
    a.Holds c v b w := by
  rcases h.held with hheld | ⟨hnull, type, place, x, heq⟩
  · exact hheld
  · exact absurd hnull (hb type place x heq)

/-- A part of what is found is found. -/
theorem part {b' : Asked} {w' : Json} {steps' : List PathSegment} (h : a.FoundAt c path v steps b w)
    (hheld : a.Holds c v b w) (hpart : b.Part c w b' w') (hstands : b'.StandsAt ((path.below steps).below steps'))
    (hat : w.at? steps' = some w') : a.FoundAt c path v (steps ++ steps') b' w' := by
  obtain ⟨hg, hsettles⟩ := hpart.settles h.grounded h.settles
  refine ⟨?_, hg, path.below_below _ _ ▸ hstands, hsettles, .inl (.part hheld hpart)⟩
  rw [Json.at?_append, h.at?]
  exact hat

/-- What a value comes down to is found where the value is. -/
theorem same {type type' : TypeRef} {place : Place} {x x' : FieldValue}
    (h : a.FoundAt c path v steps (.value type place x) w)
    (hpart : (value type place x).Part c w (.value type' place x') w) :
    a.FoundAt c path v steps (.value type' place x') w := by
  obtain ⟨hg, hsettles⟩ := hpart.settles h.grounded h.settles
  refine ⟨h.at?, hg, h.stands, hsettles, ?_⟩
  rcases h.held with hheld | ⟨hnull, -⟩
  · exact .inl (.part hheld hpart)
  · exact .inr ⟨hnull, _, _, _, rfl⟩

/-- A child is found that is put together with others. -/
theorem child {shape : Shape} {chs : List Child} {i : Nat} {ch : Child} {step : PathSegment}
    (h : a.FoundAt c path v steps (.gather shape chs) w) (hchild : chs[i]? = some ch)
    (hstep : shape.segment? i = some step) : ∃ w', a.FoundAt c path v (steps ++ [step]) (.child ch) w' := by
  obtain ⟨w', hpart⟩ := exists_part_of_getElem? h.settles h.grounded hchild
  obtain ⟨hstands, hat⟩ := hpart.at?_child h.stands h.grounded h.settles hchild hstep
  exact ⟨w', h.part (h.holds fun _ _ _ heq => absurd heq (by simp)) hpart hstands hat⟩

/-- What is put together in a value is found where the value is. -/
theorem gather {type : TypeRef} {place : Place} {x : FieldValue} {shape : Shape} {chs : List Child}
    (h : a.FoundAt c path v steps (.value type place x) w) (hpart : (value type place x).Part c w (.gather shape chs) w)
    (hstands : (Asked.gather shape chs).StandsAt place.path) : a.FoundAt c path v steps (.gather shape chs) w := by
  obtain ⟨hg, hsettles⟩ := hpart.settles h.grounded h.settles
  have hplace : place.path = path.below steps := h.stands
  have hheld := h.holds fun _ _ _ _ hnull => not_settles_gather_null (hnull ▸ hsettles)
  exact ⟨h.at?, hg, hplace ▸ hstands, hsettles, .inl (.part hheld hpart)⟩

/-- The items that are delivered with a list are found where the list is. -/
theorem items {type itemType : TypeRef} {place : Place} {x item : FieldValue} {source : ItemSource}
    {usage : Option StreamUsage} {position : Nat} (h : a.FoundAt c path v steps (.value type place x) w)
    (hdemand : c.demand type place x = .items itemType source) (husage : c.Streams place.group place.path (.ok usage))
    (hfirst : ∀ u, usage = some u → position < u.initialCount) (hitem : source.outcomes[position]? = some (.ok item)) :
    ∃ w', a.FoundAt c path v (steps ++ [.index position]) (.child ⟨itemType, place.index position, .ok item⟩) w' := by
  have hvalue := h.settles.value
  rw [hdemand] at hvalue
  obtain ⟨usage', husage', hlisted⟩ := hvalue
  have hplace : place.Alike place := ⟨FieldGroup.Grounded.alike h.grounded, rfl, rfl⟩
  rw [← hplace.streams husage husage'] at hlisted
  unfold Settles.Listed at hlisted
  dsimp only [Except.map] at hlisted
  split at hlisted
  · exact hlisted.elim
  · exact absurd hlisted (by simp)
  · rename_i items hitems
    have hpart : (value type place x).Part c w (.gather .list (itemChildren itemType place 0 items)) w :=
      .list hdemand husage hitems
    refine (h.gather hpart (standsAt_itemChildren _ _ _)).child ?_ rfl
    -- the item is one of the first
    have hget : (items.map .ok : List Resolved)[position]? = some (.ok item) := by
      rw [← ItemSource.first?_eq_ok hitems]
      cases usage with
      | none => exact hitem
      | some u =>
        show (source.outcomes.take u.initialCount)[position]? = _
        rw [List.getElem?_take_of_lt (hfirst u rfl)]
        exact hitem
    rw [List.getElem?_map, Option.map_eq_some_iff] at hget
    obtain ⟨item', hitem', heq⟩ := hget
    obtain rfl : item' = item := Except.ok.inj heq
    rw [itemChildren_eq, List.getElem?_mapIdx, hitem', Nat.zero_add]
    rfl

end FoundAt

/-- What is asked for inside is found, unless a place on the way is null because of an error. -/
theorem Leads.found (h : a.Leads c steps b) (hg : a.IsGrounded) (hstands : a.StandsAt path) (hv : Settles c a (.ok v)) :
    (∃ w, a.FoundAt c path v steps b w) ∨ ∃ ch above, above <+: steps ∧ a.NullAt c path v ch above := by
  have hfurther : ∀ {steps' : List PathSegment} {step},
      (∃ ch above, above <+: steps' ∧ a.NullAt c path v ch above) →
      ∃ ch above, above <+: steps' ++ [step] ∧ a.NullAt c path v ch above := by
    rintro steps' step ⟨ch, above, habove, hnull⟩
    exact ⟨ch, above, habove.trans (List.prefix_append _ _), hnull⟩
  induction h with
  | self => exact .inl ⟨v, rfl, hg, path.below_nil.symm ▸ hstands, hv, .inl .self⟩
  | awaited _ hdemand ih => exact ih.imp_left fun ⟨w, hfound⟩ => ⟨w, hfound.same (.awaited hdemand)⟩
  | required _ hdemand ih => exact ih.imp_left fun ⟨w, hfound⟩ => ⟨w, hfound.same (.required hdemand)⟩
  | object _ hdemand hcollected ih =>
    exact ih.imp_left fun ⟨w, hfound⟩ => ⟨w, hfound.gather (.object hdemand hcollected) (hcollected.standsAt _)⟩
  | @field _ o key child _ hchild ih =>
    obtain ⟨i, hi⟩ := List.mem_iff_getElem?.1 hchild
    refine ih.imp (fun ⟨w, hfound⟩ => hfound.child (i := i) ?_ ?_) hfurther
    · rw [List.getElem?_map, hi]
      rfl
    · show ((c.children o).map Prod.fst)[i]?.map PathSegment.key = _
      rw [List.getElem?_map, hi]
      rfl
  | item _ hdemand husage hfirst hitem ih =>
    exact ih.imp (fun ⟨w, hfound⟩ => hfound.items hdemand husage hfirst hitem) hfurther
  | @child steps type place x _ ih =>
    rcases ih with ⟨w, hfound⟩ | hnull
    · have hheld := hfound.holds fun _ _ _ heq => absurd heq (by simp)
      by_cases hw : w = .null
      · subst hw
        have hnullable := ((hv.upheld hg).null _ hheld).1
        rcases ((hv.upheld hg).null _ hheld).2 with hreached | ⟨x', hx', hsettles⟩
        · exact .inr ⟨_, steps, List.prefix_refl _, ⟨hheld, hreached⟩, hnullable, hfound.stands.1, hfound.at?⟩
        · cases hx'
          exact .inl ⟨.null, hfound.at?, hfound.grounded, hfound.stands.1, hsettles, .inr ⟨rfl, _, _, _, rfl⟩⟩
      · have hpart : (Asked.child ⟨type, place, .ok x⟩).Part c w (.value type place x) w := .child hw
        obtain ⟨hgrounded, hsettles⟩ := hpart.settles hfound.grounded hfound.settles
        exact .inl ⟨w, hfound.at?, hgrounded, hfound.stands.1, hsettles, .inl (.part hheld hpart)⟩
    · exact .inr hnull

end Asked

/-- Fields come to an object with their keys. -/
theorem Settles.exists_object {o : Selected} (h : Settles c (c.asked o) (.ok w)) :
    ∃ fields, w = .object fields ∧ Dict.keys fields = (c.children o).map Prod.fst := by
  rcases (settles_gather_iff ..).1 h with ⟨values, hvalues, heq⟩ | ⟨_, _, _, _, heq⟩
  · refine ⟨_, Except.ok.inj heq, List.map_fst_zip (Nat.le_of_eq ?_)⟩
    rw [← hvalues.length_eq, List.length_map, List.length_map]
  · exact absurd heq (by simp)

/-! ### Surroundings -/

namespace Ledger

/-- What a record delivers is asked for inside of what another record stands for, or it is the item after that of the
other one. -/
inductive Surrounds (c : ExecutionContext) (l : Ledger) (p : Publisher Task) (home id : RecordId) : Prop
  | fields {all} (hid : p.IsFieldSet id) (h : l.Encloses c p home (p.seat id) (c.asked { l.sets id with fields := all }))
  | first {stream} (hat : p.IsAt l stream id (l.lists stream).usage.initialCount)
      (h : l.EnclosesList c p home (l.lists stream))
  | next {stream position} (hbefore : p.IsAt l stream home position) (hat : p.IsAt l stream id (position + 1))

variable {l : Ledger} {p : Publisher Task} {home id : RecordId} {entry : IncrementalEntry}

theorem Asks.unique (h : l.Asks c p id a) (h' : l.Asks c p id b) : a = b := by
  cases h with
  | initial hr hcollected =>
    obtain ⟨collected', hcollected', rfl⟩ := h'.of_initial hr
    obtain rfl := Except.ok.inj (hcollected.symm.trans hcollected')
    rfl
  | fields hid => exact (h'.of_isFieldSet hid).symm
  | item hat hitem => exact (h'.of_isAt hat hitem).symm

/-- What is asked for inside of what a record stands for is found in what that comes to, unless a place on the way is null
because of an error. -/
theorem Encloses.found {path : Path} (h : l.Encloses c p home path b) (hasks : l.Asks c p home a) (hg : a.IsGrounded)
    (hstands : a.StandsAt (p.seat home)) (hv : Settles c a (.ok v)) :
    (∃ steps w, path = (p.seat home).below steps ∧ a.FoundAt c (p.seat home) v steps b w) ∨
      ∃ ch above, a.NullAt c (p.seat home) v ch above ∧ path.startsWith ch.place.path = true := by
  obtain ⟨a', steps, hasks', hleads, rfl⟩ := h
  obtain rfl := hasks.unique hasks'
  rcases hleads.found hg hstands hv with ⟨w, hfound⟩ | ⟨ch, above, ⟨rest, rfl⟩, hnull⟩
  · exact .inl ⟨steps, w, rfl, hfound⟩
  · refine .inr ⟨ch, above, hnull, ?_⟩
    rw [hnull.path]
    exact Path.startsWith_iff.2 ⟨rest, (Path.below_below _ _ _).symm⟩

/-- What is sent stands at the path of what the record stands for. -/
theorem Sends.standsAt (h : l.Sends c p id entry a v) : a.StandsAt (p.seat id) ∧ entry.path = p.seat id := by
  have hstands := h.brings.standsAt
  have hpath : entry.path = p.seat id := by
    cases h with
    | fields _ _ hseat => exact hseat.symm
    | item hat => exact hat.seat.symm
  exact ⟨hpath ▸ hstands, hpath⟩

/-- An entry fits in what its surroundings come to, unless a place above it is null there because of an error.  An item
that is not the first of its stream comes next after the one before it. -/
theorem Surrounds.fits (h : l.Surrounds c p home id) (hsends : l.Sends c p id entry b w) (hw : Settles c b (.ok w))
    (hasks : l.Asks c p home a) (hg : a.IsGrounded) (hstands : a.StandsAt (p.seat home)) (hv : Settles c a (.ok v)) :
    entry.FitsIn (p.seat home) v ∨
      (∃ ch above, a.NullAt c (p.seat home) v ch above ∧ entry.path.startsWith ch.place.path = true) ∨
      ∃ stream position v' label errors, p.IsAt l stream home position ∧
        entry = .stream ⟨[v'], (l.lists stream).place.path.index (position + 1), label, errors⟩ := by
  cases hsends with
  | fields hid hfields hseat =>
    cases h with
    | fields _ hwithin =>
      obtain ⟨new, rfl, -⟩ := hw.exists_object
      rcases hwithin.found hasks hg hstands hv with ⟨steps, w', hpath, hfound⟩ | ⟨ch, above, hnull, hbelow⟩
      · obtain ⟨fields, rfl, -⟩ := hfound.settles.exists_object
        left
        rw [← hseat, hpath]
        exact .fields hfound.at?
      · exact .inr (.inl ⟨ch, above, hnull, hseat ▸ hbelow⟩)
    | first hat => exact absurd hid hat.not_isFieldSet
    | next _ hat => exact absurd hid hat.not_isFieldSet
  | @item stream position item _ _ _ hat hlist hitem =>
    cases h with
    | fields hid => exact absurd hid hat.not_isFieldSet
    | first hat' h =>
      obtain ⟨rfl, rfl⟩ := hat.unique hat'
      obtain ⟨type, x, hdemand, hwithin⟩ := h
      rcases hwithin.found hasks hg hstands hv with ⟨steps, w', hpath, hfound⟩ | ⟨ch, above, hnull, hbelow⟩
      · obtain ⟨_, _, -, -, husage⟩ := hlist
        obtain ⟨values, rfl, hlength, -⟩ := hfound.settles.holdsFirst hfound.grounded hdemand husage
        -- the list holds all items before this one
        rw [Nat.min_eq_left (Nat.le_of_lt (List.getElem?_eq_some_iff.1 hitem).1)] at hlength
        left
        rw [hpath, ← hlength]
        exact .items hfound.at?
      · refine .inr (.inl ⟨ch, above, hnull, ?_⟩)
        obtain ⟨rest, hrest⟩ := Path.startsWith_iff.1 hbelow
        exact Path.startsWith_iff.2 ⟨rest ++ [.index _], by rw [← Path.below_index, ← hrest]; rfl⟩
    | next hbefore hat' =>
      obtain ⟨rfl, rfl⟩ := hat.unique hat'
      exact .inr (.inr ⟨stream, _, _, _, _, hbefore, rfl⟩)

/-- What is sent has surroundings, which come before it. -/
theorem Account.exists_surrounds {gone hand : List RecordId} {s : ExecStage} (h : l.Account c gone hand s)
    (hsends : l.Sends c s.publisher id entry a v) : ∃ home, home.index < id.index ∧ l.Surrounds c s.publisher home id := by
  cases hsends with
  | fields hid =>
    obtain ⟨home, all, hlt, hwithin⟩ := h.places.sets id hid
    exact ⟨home, hlt, .fields hid hwithin⟩
  | @item stream position item _ _ _ hat =>
    rcases (h.filled.counted stream id position hat).first_or_next with ⟨rfl, -⟩ | ⟨before, k, rfl, hbefore, hlt, -⟩
    · obtain ⟨home, hlt, hlist⟩ := h.places.items stream id _ hat
      exact ⟨home, hlt, .first hat hlist⟩
    · exact ⟨before, hlt, .next hbefore hat⟩

/-- Entries of records that were sent, each with the surroundings of the next one.  The first is asked for inside of the
fields of the operation. -/
inductive Nested (c : ExecutionContext) (l : Ledger) (p : Publisher Task) (looks : List (Publisher Task)) :
    RecordId → List IncrementalEntry → Prop
  | start : Nested c l p looks .initial []
  | next {home es q sent} (h : Nested c l p looks home es) (hq : q ∈ looks) (hsent : sent ∈ q.sent)
      (hhome : l.Surrounds c p home sent.1) : Nested c l p looks sent.1 (es ++ [q.entryOf sent])

end Ledger

/-- What the last of the entries brings, at its path.  Without entries that is the initial data. -/
inductive Brought (c : ExecutionContext) (initial : Json) : List IncrementalEntry → Asked → Path → Json → Prop
  | initial {collected} (h : c.collected = .ok collected) :
      Brought c initial [] (c.asked (c.opening collected)) .root initial
  | entry {es entry a v} (h : entry.Brings c a v) : Brought c initial (es ++ [entry]) a entry.path v

/-- An entry belongs below a place that is null because of an error in what was brought last before it. -/
def Nulled (c : ExecutionContext) (initial : Json) (es : List IncrementalEntry) : Prop :=
  ∃ around entry rest a path v ch steps, es = around ++ entry :: rest ∧ Brought c initial around a path v ∧
    a.NullAt c path v ch steps ∧ entry.path.startsWith ch.place.path = true

theorem Nulled.append {initial : Json} {es : List IncrementalEntry} (h : Nulled c initial es)
    (more : List IncrementalEntry) : Nulled c initial (es ++ more) := by
  obtain ⟨around, entry, rest, a, path, v, ch, steps, rfl, hrest⟩ := h
  exact ⟨around, entry, rest ++ more, a, path, v, ch, steps, by simp, hrest⟩

/-- Data to which entries have led, the last of them the one of the record: at the path of what the record stands for, the
data offers what that comes to. -/
structure Ledger.Assembled (c : ExecutionContext) (l : Ledger) (p : Publisher Task) (initial : Json) (id : RecordId)
    (es : List IncrementalEntry) (a : Asked) (v data : Json) : Prop where
  asks : l.Asks c p id a
  grounded : a.IsGrounded
  stands : a.StandsAt (p.seat id)
  settles : Settles c a (.ok v)
  brought : Brought c initial es a (p.seat id) v
  offers : ∃ m, data.at? (p.seat id).segments = some m ∧ m.Offers v
  /-- An item is the last one of its list. -/
  last : ∀ stream position, p.IsAt l stream id position →
    ∃ items, data.at? (l.lists stream).place.path.segments = some (.array items) ∧ items.length = position + 1

namespace Ledger

variable {l : Ledger} {p q : Publisher Task} {home id : RecordId} {entry : IncrementalEntry} {initial data : Json}
  {es : List IncrementalEntry} {looks : List (Publisher Task)}

/-- The initial data is what the fields of the operation come to. -/
theorem assembled_initial {initial : InitialResult} {s₀ : ExecStage} (h₀ : c.Answered initial s₀) {r : InitialRecord}
    (hr : p.record? .initial = some (.initial r)) :
    ∃ a, l.Assembled c p initial.data .initial [] a initial.data initial.data := by
  obtain ⟨fuel, hrun⟩ := h₀
  have hsettles := ExecutionContext.settles_of_respondWith hrun
  have hfailed : ∀ {e s s'}, (answer (.error e)).run s ≠ some (.incremental initial, s') := by
    intro e s s' h
    exact absurd (congrArg Prod.fst (Option.some.inj h)) (by simp [answerError])
  cases hcollected : c.collected with
  | error e =>
    rw [hcollected] at hsettles
    obtain ⟨_, hanswer⟩ := hsettles
    exact absurd hanswer hfailed
  | ok collected =>
    rw [hcollected] at hsettles
    obtain ⟨out, _, hsettles, hanswer⟩ := hsettles
    cases out with
    | error e => exact absurd hanswer hfailed
    | ok v =>
      obtain rfl : initial.data = v := Option.some.inj (data_of_answer hanswer)
      have hseat := Publisher.seat_initial hr
      refine ⟨_, .initial hr hcollected, c.grounded_opening hcollected, ?_, hsettles, ?_, ?_, fun stream position hat => ?_⟩
      · rw [hseat]
        exact c.standsAt_opening hcollected
      · rw [hseat]
        exact .initial hcollected
      · rw [hseat]
        exact ⟨_, rfl, .refl _⟩
      · obtain ⟨r', hr', -⟩ := hat
        exact absurd (hr.symm.trans hr') (by simp)

/-- What is asked for at a path to which the initial data does not lead, with no item and nothing null on the way, is
asked for inside of a set of fields. -/
theorem Encloses.isFieldSet {initial : InitialResult} {s₀ : ExecStage} {path : Path} (h : l.Encloses c p home path b)
    (h₀ : c.Answered initial s₀) (hindex : ∀ position, .index position ∉ path.segments)
    (hnone : initial.data.at? path.segments = none)
    (hnull : ∀ above ∈ path.segments.inits, initial.data.at? above ≠ some .null) : p.IsFieldSet home := by
  obtain ⟨a, steps, hasks, -, hpath⟩ := id h
  cases hasks with
  | @initial r _ hr =>
    obtain ⟨a, ha⟩ := assembled_initial (l := l) h₀ hr
    rw [Publisher.seat_initial hr] at hpath
    rcases h.found ha.asks ha.grounded ha.stands ha.settles with ⟨steps, w, hsteps, hfound⟩ | ⟨ch, above, hnullAt, hbelow⟩
    · rw [Publisher.seat_initial hr] at hsteps
      have hat := hfound.at?
      rw [hsteps] at hnone
      exact absurd (hnone.symm.trans hat) (by simp)
    · obtain ⟨rest, hrest⟩ := Path.startsWith_iff.1 hbelow
      rw [hnullAt.path, Publisher.seat_initial hr] at hrest
      exact absurd hnullAt.null (hnull above ((List.mem_inits _ _).2 ⟨rest, by rw [hrest]; rfl⟩))
  | fields hid => exact hid
  | @item _ stream position _ hat =>
    rw [hat.seat] at hpath
    exact absurd (by rw [hpath]; simp [Path.below, Path.index]) (hindex position)

theorem Sends.not_isFieldSet {e : StreamEntry} (h : l.Sends c p id (.stream e) a v) : ¬ p.IsFieldSet id := by
  cases h with
  | item hat => exact hat.not_isFieldSet

/-- What surrounds the first item of a list to which the initial data does not lead, with no item and nothing null on the
way, is a set of fields. -/
theorem Surrounds.isFieldSet {initial : InitialResult} {s₀ : ExecStage} {path : Path} {items : List Json}
    {label : Option String} {errors : List Error} (h : l.Surrounds c p home id)
    (hsends : l.Sends c p id (.stream ⟨items, path.index 0, label, errors⟩) a v) (h₀ : c.Answered initial s₀)
    (hindex : ∀ position, .index position ∉ path.segments) (hnone : initial.data.at? path.segments = none)
    (hnull : ∀ above ∈ path.segments.inits, initial.data.at? above ≠ some .null) : p.IsFieldSet home := by
  generalize hstream : IncrementalEntry.stream _ = entry at hsends
  cases hsends with
  | fields => exact absurd hstream (by simp)
  | @item stream position item _ _ _ hat =>
    obtain ⟨hplace, rfl⟩ := Path.index_inj.1 (congrArg IncrementalEntry.path hstream)
    cases h with
    | fields hid => exact absurd hid hat.not_isFieldSet
    | next _ hat' => exact absurd (hat.unique hat').2 (by simp)
    | first hat' hlist =>
      obtain ⟨rfl, -⟩ := hat.unique hat'
      obtain ⟨type, x, -, hwithin⟩ := hlist
      rw [← hplace] at hwithin
      exact hwithin.isFieldSet h₀ hindex hnone hnull

/-- What was sent leads to data that offers it. -/
theorem Sends.assembled {data' : Json} (hsends : l.Sends c p id entry b w) (hw : Settles c b (.ok w))
    (happly : entry.applyTo data = some data') : l.Assembled c p initial id (es ++ [entry]) b w data' := by
  obtain ⟨hstands, hpath⟩ := hsends.standsAt
  have hoffers : (∃ m, data'.at? (p.seat id).segments = some m ∧ m.Offers w) ∧
      ∀ stream position, p.IsAt l stream id position →
        ∃ items, data'.at? (l.lists stream).place.path.segments = some (.array items) ∧ items.length = position + 1 := by
    rw [← hpath]
    cases hsends with
    | fields hid hfields =>
      obtain ⟨new, rfl, hkeys⟩ := hw.exists_object
      refine ⟨IncrementalEntry.offers_of_applyTo ?_ happly, fun _ _ hat => absurd hid hat.not_isFieldSet⟩
      rw [hkeys]
      exact hfields.standsAt.1 _ rfl
    | item hat =>
      obtain ⟨items, hitems, hlength, hlast⟩ := IncrementalEntry.at?_of_applyTo happly
      refine ⟨⟨_, hlast, .refl _⟩, fun stream' position' hat' => ?_⟩
      obtain ⟨rfl, rfl⟩ := hat.unique hat'
      exact ⟨items, hitems, hlength⟩
  exact ⟨hsends.asks, hsends.brings.grounded, hstands, hw, hpath ▸ .entry hsends.brings, hoffers.1, hoffers.2⟩

/-- An entry can be brought into data that offers its surroundings, unless a place above it is null because of an error. -/
theorem Assembled.next (h : l.Assembled c p initial home es a v data) (hhome : l.Surrounds c p home id)
    (hsends : l.Sends c p id entry b w) (hw : Settles c b (.ok w)) :
    Nulled c initial (es ++ [entry]) ∨ ∃ data', entry.applyTo data = some data' := by
  rcases hhome.fits hsends hw h.asks h.grounded h.stands h.settles with hfits | ⟨ch, steps, hnull, hbelow⟩ | hnext
  · obtain ⟨m, hat, hoffers⟩ := h.offers
    exact .inr (hfits.exists_applyTo hat hoffers)
  · exact .inl ⟨es, entry, [], a, _, v, ch, steps, rfl, h.brought, hnull, hbelow⟩
  · obtain ⟨stream, position, v', label, errors, hat, rfl⟩ := hnext
    obtain ⟨items, hitems, hlength⟩ := h.last stream position hat
    rw [IncrementalEntry.applyTo_stream]
    exact .inr (Json.exists_updateAt hitems (if_pos hlength))

/-- Nested entries can be brought into the initial data, unless one belongs below a place that is null because of an
error. -/
theorem Nested.assembled (h : l.Nested c p looks id es) (hsends : ∀ q ∈ looks, l.SendsAsked c p q)
    (hstart : ∃ a, l.Assembled c p initial .initial [] a initial initial) :
    Nulled c initial es ∨ ∃ data a v, es.foldlM IncrementalEntry.applyTo initial = some data ∧
      l.Assembled c p initial id es a v data := by
  induction h with
  | start =>
    obtain ⟨a, ha⟩ := hstart
    exact .inr ⟨initial, a, initial, rfl, ha⟩
  | @next home es q sent _ hq hsent hhome ih =>
    rcases ih with hnulled | ⟨data, a, v, hdata, hassembled⟩
    · exact .inl (hnulled.append _)
    · obtain ⟨b, w, hb, hreports⟩ := hsends q hq sent hsent
      have hw := hreports.told.settles rfl
      rcases hassembled.next hhome hb hw with hnulled | ⟨data', happly⟩
      · exact .inl hnulled
      · refine .inr ⟨data', b, w, ?_, hb.assembled hw happly⟩
        rw [List.foldlM_append, hdata]
        show ([q.entryOf sent].foldlM IncrementalEntry.applyTo data) = _
        rw [List.foldlM_cons, happly]
        rfl

/-- What was sent is nested, unless something that surrounds it was not sent. -/
theorem exists_nested {looks : List (Publisher Task)}
    (hhome : ∀ q ∈ looks, ∀ sent ∈ q.sent, ∃ home, home.index < sent.1.index ∧ l.Surrounds c p home sent.1)
    (hid : id ∈ sentIds looks) :
    (∃ es, l.Nested c p looks id es) ∨ ∃ home k, home ≠ .initial ∧ home ∉ sentIds looks ∧ l.Surrounds c p home k ∧
      Relation.ReflTransGen (l.Surrounds c p) k id := by
  induction hindex : id.index using Nat.strongRecOn generalizing id with
  | ind n ih =>
    obtain ⟨q, hq, hmem⟩ := List.mem_flatMap.1 hid
    obtain ⟨sent, hsent, rfl⟩ := List.mem_map.1 hmem
    obtain ⟨home, hlt, hsurrounds⟩ := hhome q hq sent hsent
    by_cases hinitial : home = .initial
    · subst hinitial
      exact .inl ⟨_, .next .start hq hsent hsurrounds⟩
    by_cases hsent' : home ∈ sentIds looks
    · rcases ih _ (hindex ▸ hlt) hsent' rfl with ⟨es, hes⟩ | ⟨home', k, hne, hunsent, hk, hchain⟩
      · exact .inl ⟨_, hes.next hq hsent hsurrounds⟩
      · exact .inr ⟨home', k, hne, hunsent, hk, hchain.tail hsurrounds⟩
    · exact .inr ⟨home, _, hinitial, hsent', hsurrounds, .refl⟩

end Ledger

/-- Each entry of a response was sent for a record that has surroundings, which come before it: the fields of the
operation, a set of fields, or an item.  A set of fields that surrounds it was sent by then exactly if a fragment of the
set was delivered without errors.  If all that surrounds an entry was sent, results with these entries and the entry itself
can be brought into the initial data, from the outside in, unless one of the entries belongs below a place that is null
because of an error. -/
theorem PullsAll.assembled {initial : InitialResult} {results : List SubsequentResult} {s₀ s' : ExecStage}
    (h₀ : c.Answered initial s₀) (h : PullsAll c s₀ results s') :
    ∃ is s l, History c is [] s ∧ resultsOf (looksOf is) = results ∧ s.Over s' ∧
      results.flatMap SubsequentResult.incremental = (looksOf is).flatMap (fun q => q.sent.map q.entryOf) ∧
      (∀ q ∈ looksOf is, Ledger.SendsAsked c l s.publisher q) ∧
      (∀ before q after, is = before ++ .looked q :: after → ∀ sent ∈ q.sent,
        (∃ home, home.index < sent.1.index ∧ l.Surrounds c s.publisher home sent.1) ∧
        ∀ home, home.index < sent.1.index → l.Surrounds c s.publisher home sent.1 → s.publisher.IsFieldSet home →
          ((∃ p, .looked p ∈ before ∧ home ∈ p.sent.map Prod.fst) ↔
            ∃ p f, .looked p ∈ before ∧ f ∈ p.released ∧ p.BelongsTo home f ∧ (p.standing f).errors = [])) ∧
      (∀ id ∈ sentIds (looksOf is), (∃ es, l.Nested c s.publisher (looksOf is) id es) ∨
        ∃ home k, home ≠ .initial ∧ home ∉ sentIds (looksOf is) ∧ l.Surrounds c s.publisher home k ∧
          Relation.ReflTransGen (l.Surrounds c s.publisher) k id) ∧
      ∀ id es, l.Nested c s.publisher (looksOf is) id es → Nulled c initial.data es ∨
        ∀ payloads : List SubsequentResult, payloads.flatMap SubsequentResult.incremental = es →
          ∃ data, initial.data.assemble payloads = some data := by
  obtain ⟨hsound, hdone, -, hpending⟩ := h₀.sound
  obtain ⟨free, looks, s, hturns, rfl, hstands⟩ := h.pulls.turns hsound hdone hpending
  obtain ⟨l, haccount, hsends⟩ := hturns.sendsAsked h₀
  have hincremental := hturns.course.incremental_resultsOf h₀
  obtain ⟨is₀, his₀, hnone⟩ := h₀.history
  obtain ⟨is, his, rfl⟩ := hturns.course.history hsound his₀
  have hlooks : looksOf (is₀ ++ is) = looksOf is := by rw [looksOf_append, hnone, List.nil_append]
  have hover := h.over h₀ hstands
  rw [← hlooks] at hsends hincremental ⊢
  obtain ⟨r, hr⟩ := his.exists_initial
  have hhome : ∀ q ∈ looksOf (is₀ ++ is), ∀ sent ∈ q.sent,
      ∃ home, home.index < sent.1.index ∧ l.Surrounds c s.publisher home sent.1 := by
    intro q hq sent hsent
    obtain ⟨a, v, hsends, -⟩ := hsends q hq sent hsent
    exact haccount.exists_surrounds hsends
  refine ⟨is₀ ++ is, s, l, his, rfl, hover, hincremental, hsends, ?_, ?_, ?_⟩
  · intro before q after heq sent hsent
    refine ⟨hhome q (mem_looksOf.2 (heq ▸ by simp)) sent hsent, fun home hlt _ hset => ?_⟩
    rw [heq] at his
    obtain ⟨⟨hand', s₁, h₁, hp, hpersists⟩, -⟩ := his.split
    have hp' : s₁.publisher = q := hp
    subst hp'
    have hsize := h₁.listed.lt_size_of_mem_sent (List.mem_map_of_mem hsent)
    exact h₁.sent_iff_delivered (hpersists.isFieldSet_old hset (Nat.lt_trans hlt hsize))
  · exact fun id hid => Ledger.exists_nested hhome hid
  · intro id es hnested
    refine (hnested.assembled hsends (Ledger.assembled_initial h₀ hr)).imp_right ?_
    rintro ⟨data, -, -, hdata, -⟩ payloads rfl
    exact ⟨data, hdata⟩

/-- A streamed list in a fragment that is deferred. -/
def nestedStream : ExecutionContext :=
  .ofSelections [.ofFields "Query" [("r", .named "R")], .ofFields "R" [("l", .list (.named "String"))]] []
    (.object [("r", .object [("l", .array [.string "x", .string "y"])])])
    [.deferred [.named "r" [.streamed "l"]]]

-- the fields come into the empty initial data, and the items into the list that came with them
example : (((nestedStream.results 10).run nestedStream.stage).bind (·.1)).map (fun out =>
    (out.1.data, (out.2.flatMap SubsequentResult.incremental).length, out.1.data.assemble out.2)) =
      some (.object [], 3, some (.object [("r", .object [("l", .array [.string "x", .string "y"])])])) := by
  decide +kernel

/-- What surrounds the items of `unsentSurroundings` is a set of fields.  It was not sent, and no fragment of it was
delivered without errors. -/
theorem surroundings_not_sent : ∃ initial s₀ results s' is s l before q after sent home,
    unsentSurroundings.Answered initial s₀ ∧ PullsAll unsentSurroundings s₀ results s' ∧
    History unsentSurroundings is [] s ∧ resultsOf (looksOf is) = results ∧
    (∀ p ∈ looksOf is, Ledger.SendsAsked unsentSurroundings l s.publisher p) ∧
    is = before ++ .looked q :: after ∧ sent ∈ q.sent ∧
    q.entryOf sent = .stream ⟨[.string "x"], (((Path.root.key "q").key "r").key "l").index 0, none, []⟩ ∧
    Ledger.Surrounds unsentSurroundings l s.publisher home sent.1 ∧ s.publisher.IsFieldSet home ∧
    (¬ ∃ p, .looked p ∈ before ∧ home ∈ p.sent.map Prod.fst) ∧
    ¬ ∃ p f, .looked p ∈ before ∧ f ∈ p.released ∧ p.BelongsTo home f ∧ (p.standing f).errors = [] := by
  have hrun : (((unsentSurroundings.results 10).run unsentSurroundings.stage).bind (·.1)).map (fun out =>
      (out.1.data, out.2.flatMap SubsequentResult.incremental)) =
        some (.object [("p", .object [("a", .string "1")]), ("q", .object [("a", .string "2")])],
          [.stream ⟨[.string "x"], (((Path.root.key "q").key "r").key "l").index 0, none, []⟩]) := by
    decide +kernel
  obtain ⟨initial, s₀, results, s', hanswered, hall, heq⟩ := ExecutionContext.pullsAll_of_map_results hrun
  obtain ⟨hinitial, hentries⟩ := Prod.mk.inj heq
  obtain ⟨is, s, l, his, hresults, -, hincremental, hsends, hsurrounds, -, -⟩ := hall.assembled hanswered
  rw [hentries] at hincremental
  -- every look sends the items, or nothing
  have honly : ∀ p ∈ looksOf is, ∀ sent ∈ p.sent,
      p.entryOf sent = .stream ⟨[.string "x"], (((Path.root.key "q").key "r").key "l").index 0, none, []⟩ := by
    intro p hp sent hsent
    rw [← List.mem_singleton, hincremental]
    exact List.mem_flatMap.2 ⟨p, hp, List.mem_map_of_mem hsent⟩
  obtain ⟨q, hq, hmem⟩ := List.mem_flatMap.1 (hincremental ▸ List.mem_singleton_self _)
  obtain ⟨sent, hsent, hentry⟩ := List.mem_map.1 hmem
  obtain ⟨before, after, rfl⟩ := List.append_of_mem (mem_looksOf.1 hq)
  obtain ⟨⟨home, hlt, hhome⟩, hiff⟩ := hsurrounds before q after rfl sent hsent
  obtain ⟨a, v, hsends', -⟩ := hsends q hq sent hsent
  rw [hentry] at hsends'
  -- the initial data does not lead to the list, and nothing is null on the way
  have hset : s.publisher.IsFieldSet home :=
    hhome.isFieldSet hsends' hanswered (by simp [Path.key, Path.root]) (by rw [hinitial]; rfl) (by rw [hinitial]; decide)
  have hunsent : ¬ ∃ p, .looked p ∈ before ∧ home ∈ p.sent.map Prod.fst := by
    rintro ⟨p, hp, hmem⟩
    obtain ⟨sent', hsent', rfl⟩ := List.mem_map.1 hmem
    have hp' : p ∈ looksOf (before ++ .looked q :: after) := mem_looksOf.2 (List.mem_append_left _ hp)
    obtain ⟨_, _, hsends', -⟩ := hsends p hp' sent' hsent'
    rw [honly p hp' sent' hsent'] at hsends'
    exact hsends'.not_isFieldSet hset
  exact ⟨initial, s₀, results, s', _, s, l, before, q, after, sent, home, hanswered, hall, his, hresults, hsends, rfl,
    hsent, hentry, hhome, hset, hunsent, (hiff home hlt hhome hset).not.1 hunsent⟩

end GraphQL
