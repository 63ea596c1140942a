import GraphQL.Proofs.Delivery.Operations

/-!
# Sets of fields are delivered whole and once

Four things of the publisher tell of a set of fields: a fragment lists it as unfinished, a fragment has errors, the set has
data, or it was sent.  After all operations a set that a fragment lists is in one of these states (`Publisher.Tends`), and a
fragment is released only if it is ready (`Publisher.ReadyOnly`).  So a look for a result emits a set once, with the data
with which it was completed, and leaves no set of a fragment behind (`Publisher.Performs.deliversWhole`).
-/

namespace GraphQL

/-- The set of fields was sent, or it has data with which it was completed. -/
def FieldSetRecord.Settled (done : List (RecordId × Json)) (id : RecordId) (r : FieldSetRecord) : Prop :=
  r.sent = true ∨ ∃ data, r.data = some data ∧ (id, data) ∈ done

namespace Record

/-- The record changed, but not what a set of fields holds, and not what a fragment waits for. -/
inductive Spared : Record → Record → Prop
  | initial {r r' : InitialRecord} : Spared (.initial r) (.initial r')
  | fragment {r r' : FragmentRecord} (fieldSets : r'.fieldSets = r.fieldSets) (unfinished : r'.unfinished = r.unfinished)
      (errors : r.errors ⊆ r'.errors) : Spared (.fragment r) (.fragment r')
  | fieldSet {r r' : FieldSetRecord} (data : r'.data = r.data) (sent : r'.sent = r.sent) : Spared (.fieldSet r) (.fieldSet r')
  | items {r r' : ItemsRecord} : Spared (.items r) (.items r')

/-- A set of fields with its data. -/
def filled (data : Json) : Record → Record
  | fieldSet r => fieldSet { r with data := some data }
  | r => r

/-- The record has no sets of fields yet, and was not sent. -/
def Blank : Record → Prop
  | fragment r => r.fieldSets = []
  | fieldSet r => r.sent = false
  | _ => True

namespace Spared

variable {r r' r'' : Record}

theorem refl (r : Record) : r.Spared r := by
  cases r
  · exact initial
  · exact fragment rfl rfl (List.Subset.refl _)
  · exact fieldSet rfl rfl
  · exact items

theorem trans (h : r.Spared r') (h' : r'.Spared r'') : r.Spared r'' := by
  cases h with
  | initial =>
    cases h'
    exact initial
  | fragment hs hu he =>
    cases h' with
    | fragment hs' hu' he' => exact fragment (hs'.trans hs) (hu'.trans hu) (List.Subset.trans he he')
  | fieldSet hd hs =>
    cases h' with
    | fieldSet hd' hs' => exact fieldSet (hd'.trans hd) (hs'.trans hs)
  | items =>
    cases h'
    exact items

theorem blank (h : r.Spared r') (hr : r.Blank) : r'.Blank := by
  cases h with
  | initial => trivial
  | fragment hs => exact hs.trans hr
  | fieldSet _ hs => exact hs.trans hr
  | items => trivial

/-- A fragment that is ready stays so. -/
theorem ready {a : FragmentRecord} (h : r.Spared (.fragment a)) :
    ∃ b, r = .fragment b ∧ ((Record.fragment b).Ready → (Record.fragment a).Ready) := by
  cases h with
  | @fragment b _ _ hu he =>
    refine ⟨b, rfl, fun hready => ?_⟩
    rcases hready with hnil | herrors
    · exact .inl (hu.trans hnil)
    · exact .inr fun hnil => herrors (List.subset_nil.1 (hnil ▸ he))

theorem addChild (child : RecordId) (r : Record) : r.Spared (r.addChild child) := by
  cases r
  · exact initial
  · exact fragment rfl rfl (List.Subset.refl _)
  · exact refl _
  · exact items

theorem addError (error : Error) (r : Record) : r.Spared (r.addError error) := by
  cases r
  · exact initial
  · exact fragment rfl rfl (List.subset_append_left _ _)
  · exact fieldSet rfl rfl
  · exact items

theorem setFiltered (r : Record) : r.Spared r.setFiltered := by
  cases r
  · exact refl _
  · exact fragment rfl rfl (List.Subset.refl _)
  · exact refl _
  · exact items

end Spared

/-- A change of records by which sets of fields change, and no fragments. -/
structure OnSets (f : Record → Record) : Prop where
  fragment : ∀ r r', f r = .fragment r' → r = .fragment r'
  fieldSet : ∀ r fs', f r = .fieldSet fs' → ∃ fs, r = .fieldSet fs

namespace OnSets

theorem filled (data : Json) : OnSets (filled data) := by
  refine ⟨fun r r' h => ?_, fun r fs' h => ?_⟩
  · cases r
    case fragment => exact h
    all_goals cases h
  · cases r
    case fieldSet fs => exact ⟨fs, rfl⟩
    all_goals cases h

theorem emptied : OnSets emptied := by
  refine ⟨fun r r' h => ?_, fun r fs' h => ?_⟩
  · cases r
    case fragment => exact h
    all_goals cases h
  · cases r
    case fieldSet fs => exact ⟨fs, rfl⟩
    all_goals cases h

variable {f : Record → Record} {o : Option Record}

theorem fragment_of_map (hf : OnSets f) {r : FragmentRecord} (h : o.map f = some (.fragment r)) : o = some (.fragment r) := by
  obtain ⟨r₀, rfl, heq⟩ := Option.map_eq_some_iff.1 h
  rw [hf.fragment r₀ r heq]

theorem fieldSet_of_map (hf : OnSets f) {fs' : FieldSetRecord} (h : o.map f = some (.fieldSet fs')) :
    ∃ fs, o = some (.fieldSet fs) := by
  obtain ⟨r₀, rfl, heq⟩ := Option.map_eq_some_iff.1 h
  obtain ⟨fs, rfl⟩ := hf.fieldSet r₀ fs' heq
  exact ⟨fs, rfl⟩

end OnSets

end Record

namespace Publisher

variable {ω : Type} {p q : Publisher ω} {id : RecordId} {f : Record → Record}

/-- The fragments that are released are ready. -/
structure ReadyOnly (p : Publisher ω) : Prop where
  nodup : p.released.Nodup
  ready : ∀ id ∈ p.released, ∀ r, p.record? id = some (.fragment r) → (Record.fragment r).Ready

/-- Records that were there are spared, others are blank, and fragments are released only if they are ready. -/
structure Spares (p q : Publisher ω) : Prop where
  records : ∀ id r, p.record? id = some r → ∃ r', q.record? id = some r' ∧ r.Spared r'
  new : ∀ id r', p.record? id = none → q.record? id = some r' → r'.Blank
  ready : p.ReadyOnly → q.ReadyOnly

/-! ### Operations that spare all records -/

namespace Spares

theorem of_records (hrecords : q.records = p.records) (hreleased : q.released = p.released) : p.Spares q := by
  have hsame : ∀ id, q.record? id = p.record? id := fun id => congrArg (·[id.index]?) hrecords
  refine ⟨fun id r hr => ⟨r, (hsame id).trans hr, .refl r⟩, fun id r' hnone hr' => ?_, fun h => ⟨?_, fun id hid r hr => ?_⟩⟩
  · rw [hsame, hnone] at hr'
    cases hr'
  · rw [hreleased]
    exact h.nodup
  · rw [hreleased] at hid
    rw [hsame] at hr
    exact h.ready id hid r hr

theorem refl (p : Publisher ω) : p.Spares p := of_records rfl rfl

theorem trans {u : Publisher ω} (h : p.Spares q) (h' : q.Spares u) : p.Spares u := by
  refine ⟨fun id r hr => ?_, fun id r'' hnone hr'' => ?_, fun hready => h'.ready (h.ready hready)⟩
  · obtain ⟨r', hr', hspared⟩ := h.records id r hr
    obtain ⟨r'', hr'', hspared'⟩ := h'.records id r' hr'
    exact ⟨r'', hr'', hspared.trans hspared'⟩
  · cases hr' : q.record? id with
    | none => exact h'.new id r'' hr' hr''
    | some r' =>
      obtain ⟨_, heq, hspared⟩ := h'.records id r' hr'
      rw [hr''] at heq
      cases heq
      exact hspared.blank (h.new id r' hnone hr')

theorem foldl {α : Type} {f : Publisher ω → α → Publisher ω} (hf : ∀ (p : Publisher ω) a, p.Spares (f p a)) (xs : List α)
    (p : Publisher ω) : p.Spares (xs.foldl f p) := by
  induction xs generalizing p with
  | nil => exact refl p
  | cons x rest ih => exact (hf p x).trans (ih (f p x))

theorem modifyRecord (p : Publisher ω) (id : RecordId) (hf : ∀ r : Record, r.Spared (f r)) :
    p.Spares (p.modifyRecord id f) := by
  have hrecords : ∀ j r, p.record? j = some r → ∃ r', (p.modifyRecord id f).record? j = some r' ∧ r.Spared r' := by
    intro j r hr
    rw [record?_modifyRecord, hr]
    by_cases hj : id = j
    · rw [if_pos hj]
      exact ⟨f r, rfl, hf r⟩
    · rw [if_neg hj]
      exact ⟨r, rfl, .refl r⟩
  refine ⟨hrecords, fun j r' hnone hr' => ?_, fun h => ⟨h.nodup, fun j hj r' hr' => ?_⟩⟩
  · rw [record?_modifyRecord, hnone] at hr'
    split at hr' <;> cases hr'
  · cases hr : p.record? j with
    | none =>
      rw [record?_modifyRecord, hr] at hr'
      split at hr' <;> cases hr'
    | some r =>
      obtain ⟨_, heq, hspared⟩ := hrecords j r hr
      rw [hr'] at heq
      cases heq
      obtain ⟨b, rfl, hready⟩ := hspared.ready
      exact hready (h.ready j hj b hr)

theorem modifyItems (p : Publisher ω) (id : RecordId) (g : ItemsRecord → ItemsRecord) : p.Spares (p.modifyItems id g) := by
  refine modifyRecord p id fun r => ?_
  cases r
  case items => exact .items
  all_goals exact .refl _

theorem release (hid : ∀ r, p.record? id = some (.fragment r) → (Record.fragment r).Ready) : p.Spares (p.release id) := by
  unfold Publisher.release
  split
  · refine ⟨fun j r hr => ⟨r, hr, .refl r⟩, fun j r' hnone hr' => ?_, fun h => ⟨nodup_addNew h.nodup, fun j hj r hr => ?_⟩⟩
    · exact absurd (hnone.symm.trans hr') (by simp)
    · rcases mem_addNew.1 hj with hj | rfl
      · exact h.ready j hj r hr
      · exact hid r hr
  · exact refl p

theorem push (p : Publisher ω) {record : Record} (hblank : record.Blank)
    (hready : ∀ r, record = .fragment r → (Record.fragment r).Ready) : p.Spares (p.push record).1 := by
  refine ⟨fun j r hr => ⟨r, ?_, .refl r⟩, fun j r' hnone hr' => ?_, fun h => ⟨h.nodup, fun j hj r hr => ?_⟩⟩
  · rw [record?_push, if_neg]
    · exact hr
    · rintro rfl
      exact absurd (lt_size_of_record? hr) (Nat.lt_irrefl _)
  · rw [record?_push] at hr'
    split at hr'
    · cases hr'
      exact hblank
    · exact absurd (hnone.symm.trans hr') (by simp)
  · rw [record?_push] at hr
    split at hr
    · exact hready r (Option.some.inj hr)
    · exact h.ready j hj r hr

theorem addChild (p : Publisher ω) (parent child : RecordId) : p.Spares (p.addChild parent child) :=
  foldl (fun p id => modifyRecord p id (.addChild child)) _ p

theorem publish (p : Publisher ω) (id : RecordId) : p.Spares (p.publish id) := by
  unfold Publisher.publish
  dsimp only
  split
  · rename_i htrue
    refine ⟨fun j r hr => ⟨r, hr, .refl r⟩, fun j r' hnone hr' => ?_, fun h => ⟨nodup_addNew h.nodup, fun j hj r hr => ?_⟩⟩
    · exact absurd (hnone.symm.trans hr') (by simp)
    · rcases mem_addNew.1 hj with hj | rfl
      · exact h.ready j hj r hr
      · have hr : p.record? j = some (.fragment r) := hr
        rw [hr] at htrue
        simpa [Record.Ready] using htrue
  · exact of_records rfl rfl
  · exact refl p

theorem publishChildren (p : Publisher ω) (id : RecordId) : p.Spares (p.publishChildren id) :=
  foldl publish _ p

theorem takeErrors (p : Publisher ω) : p.Spares p.takeErrors.1 := by
  refine modifyRecord p _ fun r => ?_
  cases r
  case initial => exact .initial
  all_goals exact .refl _

theorem filter (p : Publisher ω) (path : Path) (id : RecordId) : p.Spares (p.filter path id).1 :=
  foldl (fun p id => modifyRecord p id .setFiltered) _ p

theorem failItems (p : Publisher ω) (id : RecordId) (error : Error) : p.Spares (p.failItems id error).1 := by
  unfold Publisher.failItems
  split
  · rename_i r hr
    have hstreams : ∀ g streams, p.Spares { p.modifyItems id g with streams := streams } := fun g _ =>
      (modifyItems p id g).trans (of_records rfl rfl)
    refine (hstreams _ _).trans (release fun fr hfr => ?_)
    exact absurd ((record?_modifyItems hr _).symm.trans hfr) (by simp)
  · exact refl p

theorem addFragment (p : Publisher ω) (path : Path) (label : Option String) (parent : RecordId) :
    p.Spares (p.addFragment path label parent).1 := by
  have hpush : p.Spares (p.push (.fragment { path := path, label := label })).1 :=
    push p rfl fun r heq => .inl (by cases heq; rfl)
  exact hpush.trans (addChild _ parent _)

theorem addItems (p : Publisher ω) (stream : StreamId) (path : Path) (parent : RecordId) :
    p.Spares (p.addItems stream path parent).1 := by
  have hpush : p.Spares (p.push (.items { stream := stream, path := path })).1 := push p trivial fun r heq => by cases heq
  exact hpush.trans (addChild _ parent _)

theorem spawn (p : Publisher ω) (work : ω) : p.Spares (p.perform (.spawn work)) := by
  unfold perform
  dsimp only
  split
  · exact refl p
  · exact of_records rfl rfl

theorem respond (p : Publisher ω) : p.Spares (p.perform .respond) := by
  refine ((publishChildren p .initial).trans (takeErrors _)).trans ?_
  unfold perform
  dsimp only
  split
  · exact refl _
  · exact of_records rfl rfl

/-- Items that are completed, of a record that is no fragment. -/
theorem settleItems (hid : ∀ r, p.record? id ≠ some (.fragment r)) (g : ItemsRecord → ItemsRecord) :
    p.Spares ((p.modifyItems id g).release id) := by
  refine (modifyItems p id g).trans (release fun fr hfr => ?_)
  unfold Publisher.modifyItems at hfr
  rw [record?_modifyRecord, if_pos rfl] at hfr
  obtain ⟨r, hr, heq⟩ := Option.map_eq_some_iff.1 hfr
  cases r
  case fragment r => exact absurd hr (hid r)
  all_goals exact absurd heq (by simp)

end Spares

/-! ### What a fragment waits for -/

/-- A fragment lists its sets of fields once, and waits for each of them that has no data and was not sent, unless it
failed. -/
structure Tends (p : Publisher ω) (done : List (RecordId × Json)) (r : FragmentRecord) : Prop where
  nodup : r.fieldSets.Nodup
  listed : ∀ set ∈ r.fieldSets, ∃ fs, p.record? set = some (.fieldSet fs) ∧
    (set ∈ r.unfinished ∨ r.errors ≠ [] ∨ fs.Settled done set)

/-- All fragments wait for what is to come, and the sets of fields that were sent are those that were emitted. -/
structure Accounted (p : Publisher ω) (done : List (RecordId × Json)) (emitted : List RecordId) : Prop where
  ready : p.ReadyOnly
  tends : ∀ id r, p.record? id = some (.fragment r) → p.Tends done r
  sent : ∀ id r, p.record? id = some (.fieldSet r) → (r.sent = true ↔ id ∈ emitted)
  found : ∀ id ∈ emitted, ∃ r, p.record? id = some (.fieldSet r)
  nodup : emitted.Nodup

variable {done done' : List (RecordId × Json)} {emitted : List RecordId} {r r' : FragmentRecord}

/-- A fragment that is spared waits for the same sets, if these are there still, and settled if they were. -/
theorem Tends.spared (h : p.Tends done r) (hr : (Record.fragment r).Spared (.fragment r'))
    (hsets : ∀ set fs, p.record? set = some (.fieldSet fs) →
      ∃ fs', q.record? set = some (.fieldSet fs') ∧ (fs.Settled done set → fs'.Settled done' set)) : q.Tends done' r' := by
  cases hr with
  | fragment hfieldSets hunfinished herrors =>
    refine ⟨hfieldSets ▸ h.nodup, fun set hset => ?_⟩
    rw [hfieldSets] at hset
    rw [hunfinished]
    obtain ⟨fs, hfs, hstate⟩ := h.listed set hset
    obtain ⟨fs', hfs', hsettled⟩ := hsets set fs hfs
    refine ⟨fs', hfs', ?_⟩
    rcases hstate with hopen | hfailed | hstate
    · exact .inl hopen
    · exact .inr (.inl fun hnil => hfailed (List.subset_nil.1 (hnil ▸ herrors)))
    · exact .inr (.inr (hsettled hstate))

/-- Two changes of a fragment are one. -/
theorem modifyFragment_modifyFragment (p : Publisher ω) (id : RecordId) (f g : FragmentRecord → FragmentRecord) :
    (p.modifyFragment id f).modifyFragment id g = p.modifyFragment id fun r => g (f r) := by
  unfold modifyFragment modifyRecord
  congr 1
  refine Array.ext_getElem? fun i => ?_
  rw [Array.getElem?_modify, Array.getElem?_modify, Array.getElem?_modify]
  by_cases hi : id.index = i
  · rw [if_pos hi, if_pos hi, if_pos hi]
    cases p.records[i]? with
    | none => rfl
    | some r => cases r <;> rfl
  · rw [if_neg hi, if_neg hi, if_neg hi]

section

variable {g : FragmentRecord → FragmentRecord} {j : RecordId}

/-- A change of a fragment leaves sets of fields as they are. -/
theorem record?_modifyFragment_fieldSet {fs : FieldSetRecord} :
    (p.modifyFragment id g).record? j = some (.fieldSet fs) ↔ p.record? j = some (.fieldSet fs) := by
  unfold modifyFragment
  rw [record?_modifyRecord]
  split
  · cases p.record? j with
    | none => simp
    | some r => cases r <;> simp
  · rfl

/-- The other fragments are as they were after a change of one. -/
theorem record?_modifyFragment_fragment (h : (p.modifyFragment id g).record? j = some (.fragment r')) :
    p.record? j = some (.fragment r') ∧ j ≠ id ∨ j = id ∧ ∃ r, p.record? id = some (.fragment r) ∧ r' = g r := by
  unfold modifyFragment at h
  rw [record?_modifyRecord] at h
  by_cases hj : id = j
  · rw [if_pos hj] at h
    obtain ⟨r, hr, heq⟩ := Option.map_eq_some_iff.1 h
    cases r
    case fragment r =>
      cases heq
      exact .inr ⟨hj.symm, r, hj ▸ hr, rfl⟩
    all_goals cases heq
  · rw [if_neg hj] at h
    exact .inl ⟨h, fun heq => hj heq.symm⟩

end

namespace Accounted

theorem start : ({} : Publisher ω).Accounted [] [] := by
  have hrecord : ∀ id r, ({} : Publisher ω).record? id = some r → r = .initial {} := by
    rintro ⟨_ | n⟩ r hr
    · exact (Option.some.inj hr).symm
    · cases hr
  refine ⟨⟨List.nodup_nil, fun _ h => absurd h List.not_mem_nil⟩, fun id r hr => ?_, fun id r hr => ?_,
    fun _ h => absurd h List.not_mem_nil, List.nodup_nil⟩
  · exact absurd (hrecord id _ hr) (by simp)
  · exact absurd (hrecord id _ hr) (by simp)

theorem spare (h : p.Accounted done emitted) (hq : p.Spares q) : q.Accounted done emitted := by
  have hsets : ∀ set fs, p.record? set = some (.fieldSet fs) →
      ∃ fs', q.record? set = some (.fieldSet fs') ∧ fs'.data = fs.data ∧ fs'.sent = fs.sent := by
    intro set fs hfs
    obtain ⟨_, hfs', hspared⟩ := hq.records set _ hfs
    cases hspared with
    | fieldSet hdata hsent => exact ⟨_, hfs', hdata, hsent⟩
  refine ⟨hq.ready h.ready, fun id r' hr' => ?_, fun id r' hr' => ?_, fun id hid => ?_, h.nodup⟩
  · cases hr : p.record? id with
    | none =>
      have hnil : r'.fieldSets = [] := hq.new id _ hr hr'
      exact ⟨hnil ▸ List.nodup_nil, fun set hset => absurd (hnil ▸ hset) List.not_mem_nil⟩
    | some r =>
      obtain ⟨_, heq, hspared⟩ := hq.records id r hr
      cases hr'.symm.trans heq
      obtain ⟨b, rfl, -⟩ := hspared.ready
      refine (h.tends id b hr).spared hspared fun set fs hfs => ?_
      obtain ⟨fs', hfs', hdata, hsent⟩ := hsets set fs hfs
      refine ⟨fs', hfs', fun hsettled => ?_⟩
      unfold FieldSetRecord.Settled
      rw [hdata, hsent]
      exact hsettled
  · cases hr : p.record? id with
    | none =>
      have hsent : r'.sent = false := hq.new id _ hr hr'
      refine ⟨fun htrue => absurd (htrue.symm.trans hsent) (by simp), fun hid => ?_⟩
      obtain ⟨r, hr₀⟩ := h.found id hid
      exact absurd (hr.symm.trans hr₀) (by simp)
    | some r =>
      obtain ⟨_, heq, hspared⟩ := hq.records id r hr
      cases hr'.symm.trans heq
      cases hspared with
      | fieldSet hdata hsent =>
        rw [hsent]
        exact h.sent id _ hr
  · obtain ⟨r, hr⟩ := h.found id hid
    obtain ⟨r', hr', -⟩ := hsets id r hr
    exact ⟨r', hr'⟩

/-- A change of a fragment, which waits for what is to come after it, and is ready if it is released. -/
theorem modifyFragment (h : p.Accounted done emitted) {g : FragmentRecord → FragmentRecord}
    (hg : ∀ r, p.record? id = some (.fragment r) →
      p.Tends done (g r) ∧ (id ∈ p.released → (Record.fragment (g r)).Ready)) :
    (p.modifyFragment id g).Accounted done emitted := by
  have hsets : ∀ set fs, p.record? set = some (.fieldSet fs) → ∃ fs',
      (p.modifyFragment id g).record? set = some (.fieldSet fs') ∧ (fs.Settled done set → fs'.Settled done set) :=
    fun set fs hfs => ⟨fs, record?_modifyFragment_fieldSet.2 hfs, fun hsettled => hsettled⟩
  refine ⟨⟨h.ready.nodup, fun j hj r' hr' => ?_⟩, fun j r' hr' => ?_, fun j fs hfs => ?_, fun j hj => ?_, h.nodup⟩
  · rcases record?_modifyFragment_fragment hr' with ⟨hr, -⟩ | ⟨rfl, r, hr, rfl⟩
    · exact h.ready.ready j hj r' hr
    · exact (hg r hr).2 hj
  · rcases record?_modifyFragment_fragment hr' with ⟨hr, -⟩ | ⟨rfl, r, hr, rfl⟩
    · exact (h.tends j r' hr).spared (.refl _) hsets
    · exact (hg r hr).1.spared (.refl _) hsets
  · exact h.sent j fs (record?_modifyFragment_fieldSet.1 hfs)
  · obtain ⟨fs, hfs⟩ := h.found j hj
    exact ⟨fs, record?_modifyFragment_fieldSet.2 hfs⟩

/-! ### Operations on sets of fields -/

/-- A new set of fields, whose fragments are not released. -/
theorem addFieldSet (h : p.Accounted done emitted) (path : Path) {fragments : List RecordId}
    (hfragments : ∀ f ∈ fragments, f ∉ p.released) : (p.addFieldSet path fragments).1.Accounted done emitted := by
  have hpush : (p.push (.fieldSet { path := path, fragments := fragments })).1.Accounted done emitted :=
    h.spare (.push p rfl fun r heq => by cases heq)
  have hnew : (p.push (.fieldSet { path := path, fragments := fragments })).1.record? ⟨p.records.size⟩ =
      some (.fieldSet { path := path, fragments := fragments }) := by
    rw [record?_push, if_pos rfl]
  -- the set is there at each step, and what is released does not change
  refine (List.foldlRecOn (motive := fun q : Publisher ω => q.Accounted done emitted ∧ q.released = p.released ∧
    ∃ fs, q.record? ⟨p.records.size⟩ = some (.fieldSet fs)) fragments _ ⟨hpush, rfl, _, hnew⟩ fun q hq f hf => ?_).1
  obtain ⟨hq, hreleased, fs, hfs⟩ := hq
  refine ⟨hq.modifyFragment fun r hr => ⟨⟨nodup_addNew (hq.tends f r hr).nodup, fun set hset => ?_⟩, fun hmem => ?_⟩,
    hreleased, fs, record?_modifyFragment_fieldSet.2 hfs⟩
  · rcases mem_addNew.1 hset with hset | rfl
    · obtain ⟨fs, hfs, hstate⟩ := (hq.tends f r hr).listed set hset
      exact ⟨fs, hfs, hstate.imp_left fun hopen => mem_addNew.2 (.inl hopen)⟩
    · exact ⟨fs, hfs, .inl (mem_addNew.2 (.inr rfl))⟩
  · rw [hreleased] at hmem
    exact absurd hmem (hfragments f hf)

/-- Sets of fields that change, while fragments do not. -/
theorem of_sets (h : p.Accounted done emitted) (hready : q.ReadyOnly) {emitted' : List RecordId}
    (hfragments : ∀ id r, q.record? id = some (.fragment r) → p.record? id = some (.fragment r))
    (hsets : ∀ id fs, p.record? id = some (.fieldSet fs) → ∃ fs', q.record? id = some (.fieldSet fs') ∧
      (fs'.sent = true ↔ id ∈ emitted') ∧ (fs.Settled done id → fs'.Settled done' id))
    (hback : ∀ id fs', q.record? id = some (.fieldSet fs') → ∃ fs, p.record? id = some (.fieldSet fs))
    (hfound : ∀ id ∈ emitted', ∃ r, p.record? id = some (.fieldSet r)) (hnodup : emitted'.Nodup) :
    q.Accounted done' emitted' := by
  refine ⟨hready, fun id r hr => ?_, fun id fs' hfs' => ?_, fun id hid => ?_, hnodup⟩
  · refine (h.tends id r (hfragments id r hr)).spared (.refl _) fun set fs hfs => ?_
    obtain ⟨fs', hfs', -, hsettled⟩ := hsets set fs hfs
    exact ⟨fs', hfs', hsettled⟩
  · obtain ⟨fs, hfs⟩ := hback id fs' hfs'
    obtain ⟨_, heq, hsent, -⟩ := hsets id fs hfs
    cases hfs'.symm.trans heq
    exact hsent
  · obtain ⟨fs, hfs⟩ := hfound id hid
    obtain ⟨fs', hfs', -⟩ := hsets id fs hfs
    exact ⟨fs', hfs'⟩

/-- A set of fields gets its data. -/
theorem filled (h : p.Accounted done emitted) (id : RecordId) (data : Json) :
    (p.modifyRecord id (.filled data)).Accounted (done ++ [(id, data)]) emitted := by
  have hfragments : ∀ j r, (p.modifyRecord id (.filled data)).record? j = some (.fragment r) →
      p.record? j = some (.fragment r) := by
    intro j r hr
    rw [record?_modifyRecord] at hr
    split at hr
    · exact (Record.OnSets.filled data).fragment_of_map hr
    · exact hr
  have hready : (p.modifyRecord id (.filled data)).ReadyOnly :=
    ⟨h.ready.nodup, fun j hj r hr => h.ready.ready j hj r (hfragments j r hr)⟩
  refine h.of_sets hready hfragments (fun j fs hfs => ?_) (fun j fs' hfs' => ?_) h.found h.nodup
  · rw [record?_modifyRecord, hfs]
    by_cases hj : id = j
    · subst hj
      rw [if_pos rfl]
      exact ⟨_, rfl, h.sent id fs hfs, fun _ => .inr ⟨data, rfl, List.mem_append_right _ (List.mem_singleton_self _)⟩⟩
    · rw [if_neg hj]
      refine ⟨fs, rfl, h.sent j fs hfs, fun hsettled => ?_⟩
      rcases hsettled with hsent | ⟨data', hdata, hdone⟩
      · exact .inl hsent
      · exact .inr ⟨data', hdata, List.mem_append_left _ hdone⟩
  · rw [record?_modifyRecord] at hfs'
    split at hfs'
    · exact (Record.OnSets.filled data).fieldSet_of_map hfs'
    · exact ⟨fs', hfs'⟩

/-- A set of fields that is settled is not waited for any more. -/
theorem finishFieldSet (h : p.Accounted done emitted) {set fragment : RecordId}
    (hset : ∀ fs, p.record? set = some (.fieldSet fs) → fs.Settled done set) :
    (p.finishFieldSet set fragment).Accounted done emitted := by
  refine h.modifyFragment fun r hr => ⟨⟨(h.tends fragment r hr).nodup, fun s hs => ?_⟩, fun hmem => ?_⟩
  · obtain ⟨fs, hfs, hstate⟩ := (h.tends fragment r hr).listed s hs
    refine ⟨fs, hfs, ?_⟩
    by_cases heq : s = set
    · subst heq
      exact .inr (.inr (hset fs hfs))
    · refine hstate.imp_left fun hopen => List.mem_filter.2 ⟨hopen, ?_⟩
      simpa using heq
  · rcases h.ready.ready fragment hmem r hr with hnil | herrors
    · left
      show r.unfinished.filter _ = []
      rw [hnil]
      rfl
    · exact .inr herrors

/-- A set of fields is completed. -/
theorem completeFieldSet (h : p.Accounted done emitted) (id : RecordId) (data : Json) :
    (p.completeFieldSet id data).Accounted (done ++ [(id, data)]) emitted := by
  have hset : ∀ fs, (p.modifyRecord id (.filled data)).record? id = some (.fieldSet fs) →
      fs.Settled (done ++ [(id, data)]) id := by
    intro fs hfs
    rw [record?_modifyRecord, if_pos rfl] at hfs
    obtain ⟨r, -, heq⟩ := Option.map_eq_some_iff.1 hfs
    cases r
    case fieldSet =>
      cases heq
      exact .inr ⟨data, rfl, List.mem_append_right _ (List.mem_singleton_self _)⟩
    all_goals cases heq
  unfold Publisher.completeFieldSet
  -- the set is settled at each step
  refine (List.foldlRecOn (motive := fun q : Publisher ω => q.Accounted (done ++ [(id, data)]) emitted ∧
    ∀ fs, q.record? id = some (.fieldSet fs) → fs.Settled (done ++ [(id, data)]) id)
    (p.fragmentsOf id) _ ⟨h.filled id data, hset⟩ fun q hq fragment _ => ?_).1
  have hsame : ∀ fs, (q.finishFieldSet id fragment).record? id = some (.fieldSet fs) →
      fs.Settled (done ++ [(id, data)]) id := by
    intro fs hfs
    exact hq.2 fs (record?_modifyFragment_fieldSet.1 hfs)
  have hfinished : (q.finishFieldSet id fragment).Accounted (done ++ [(id, data)]) emitted := hq.1.finishFieldSet hq.2
  dsimp only
  split
  · rename_i r hr
    split
    · rename_i hempty
      refine ⟨hfinished.spare (.release fun r' hr' => ?_), fun fs hfs => hsame fs ?_⟩
      · cases hr.symm.trans hr'
        exact .inl (List.isEmpty_iff.1 hempty)
      · rwa [record?_release] at hfs
    · exact ⟨hfinished, hsame⟩
  · exact ⟨hfinished, hsame⟩

/-- A fragment fails, and is released with its errors. -/
theorem failFragment (h : p.Accounted done emitted) (fragment : RecordId) {g : FragmentRecord → FragmentRecord}
    (hsets : ∀ r, (g r).fieldSets = r.fieldSets) (herrors : ∀ r, (g r).errors ≠ []) :
    ((p.modifyFragment fragment g).release fragment).Accounted done emitted := by
  have hfailed : (p.modifyFragment fragment g).Accounted done emitted := by
    refine h.modifyFragment fun r hr => ⟨⟨?_, fun set hset => ?_⟩, fun _ => .inr (herrors r)⟩
    · rw [hsets]
      exact (h.tends fragment r hr).nodup
    · rw [hsets] at hset
      obtain ⟨fs, hfs, -⟩ := (h.tends fragment r hr).listed set hset
      exact ⟨fs, hfs, .inr (.inl (herrors r))⟩
  refine hfailed.spare (.release fun r' hr' => ?_)
  rcases record?_modifyFragment_fragment hr' with ⟨-, hne⟩ | ⟨-, r, -, rfl⟩
  · exact absurd rfl hne
  · exact .inr (herrors r)

/-- A set of fields failed, and all its fragments with it. -/
theorem failFieldSet (h : p.Accounted done emitted) (id : RecordId) (error : Error) :
    (p.failFieldSet id error).Accounted done emitted := by
  refine List.foldlRecOn (motive := fun q : Publisher ω => q.Accounted done emitted) (p.fragmentsOf id) _ h
    fun q hq fragment _ => ?_
  dsimp only [Publisher.finishFieldSet]
  rw [modifyFragment_modifyFragment]
  exact hq.failFragment fragment (fun _ => rfl) fun _ => by simp

theorem listsOnce (h : p.Accounted done emitted) : p.ListsOnce := fun id r hr => (h.tends id r hr).nodup

end Accounted

/-! ### Looks for results -/

namespace ReadyOnly

/-- A change by which no record becomes another fragment. -/
theorem modifyRecord (h : p.ReadyOnly) (id : RecordId) (hf : ∀ r r', f r = .fragment r' → r = .fragment r') :
    (p.modifyRecord id f).ReadyOnly := by
  refine ⟨h.nodup, fun j hj r hr => h.ready j hj r ?_⟩
  rw [record?_modifyRecord] at hr
  split at hr
  · obtain ⟨r₀, hr₀, heq⟩ := Option.map_eq_some_iff.1 hr
    rw [hr₀, hf r₀ r heq]
  · exact hr

/-- A delivery changes no fragment, and releases nothing. -/
theorem deliver (h : p.ReadyOnly) (id : RecordId) : (p.deliver id).1.ReadyOnly := by
  have hsend : ∀ (label : Option String) (q : Publisher ω) (entries : List IncrementalEntry) (set : RecordId),
      q.ReadyOnly → (sendFieldSet label (q, entries) set).1.ReadyOnly := by
    intro label q entries set hq
    unfold sendFieldSet
    dsimp only
    split
    · split
      · exact hq
      · exact hq.modifyRecord set fun _ _ heq => by cases heq
    · exact hq
  unfold Publisher.deliver
  split
  · dsimp only
    split
    · exact h
    · exact (Spares.modifyItems p id _).ready h
  · rename_i r hr
    dsimp only
    split
    · exact h
    · exact List.foldlRecOn (motive := fun state : Publisher ω × List IncrementalEntry => state.1.ReadyOnly) r.fieldSets _ h
        fun state hstate set _ => hsend r.label state.1 state.2 set hstate
  · exact h

theorem nextResult? (h : p.ReadyOnly) : p.nextResult?.1.ReadyOnly := by
  have hstart : ReadyOnly { p with released := [], pending := p.pending.filter (· ∉ p.released) } :=
    ⟨List.nodup_nil, fun _ hid => absurd hid List.not_mem_nil⟩
  have hall : (p.released.foldl deliverNext
      ({ p with released := [], pending := p.pending.filter (· ∉ p.released) }, [], [])).1.ReadyOnly :=
    List.foldlRecOn
      (motive := fun state : Publisher ω × List IncrementalEntry × List CompletedEntry => state.1.ReadyOnly)
      p.released _ hstart fun state hstate id _ => ((Spares.publishChildren state.1 id).ready hstate).deliver id
  unfold Publisher.nextResult?
  split
  · exact h
  · unfold processReleased
    dsimp only
    split <;> exact hall

end ReadyOnly

namespace Accounted

/-- A look for a result. -/
theorem nextResult? (h : p.Accounted done emitted) : p.nextResult?.1.Accounted done (emitted ++ p.emissions.map Prod.snd) := by
  have hrecord := record?_nextResult? h.ready.nodup h.listsOnce
  have hemitted : ∀ id, id ∈ p.emissions.map Prod.snd ↔ id ∈ p.sent.map Prod.fst ∧ p.isUnsent id = true :=
    fun id => mem_map_emitting
  have hunsent : ∀ id fs, p.record? id = some (.fieldSet fs) → (p.isUnsent id = true ↔ id ∉ emitted) := by
    intro id fs hfs
    rw [← h.sent id fs hfs, isUnsent_iff, hfs]
    simp
  refine h.of_sets h.ready.nextResult? (fun id r hr => ?_) (fun id fs hfs => ?_) (fun id fs' hfs' => ?_) (fun id hid => ?_) ?_
  · rw [hrecord] at hr
    split at hr
    · exact Record.OnSets.emptied.fragment_of_map hr
    · exact hr
  · rw [hrecord, hfs]
    by_cases hsent : id ∈ p.sent.map Prod.fst
    · rw [if_pos hsent]
      refine ⟨_, rfl, ⟨fun _ => ?_, fun _ => rfl⟩, fun _ => .inl rfl⟩
      by_cases hold : id ∈ emitted
      · exact List.mem_append_left _ hold
      · exact List.mem_append_right _ ((hemitted id).2 ⟨hsent, (hunsent id fs hfs).2 hold⟩)
    · rw [if_neg hsent]
      refine ⟨fs, rfl, (h.sent id fs hfs).trans ⟨List.mem_append_left _, fun hid => ?_⟩, fun hsettled => hsettled⟩
      rcases List.mem_append.1 hid with hold | hnew
      · exact hold
      · exact absurd ((hemitted id).1 hnew).1 hsent
  · rw [hrecord] at hfs'
    split at hfs'
    · exact Record.OnSets.emptied.fieldSet_of_map hfs'
    · exact ⟨fs', hfs'⟩
  · rcases List.mem_append.1 hid with hid | hid
    · exact h.found id hid
    · obtain ⟨r, hr, -⟩ := isUnsent_iff.1 ((hemitted id).1 hid).2
      exact ⟨r, hr⟩
  · rw [List.nodup_append]
    refine ⟨h.nodup, nodup_emitting h.listsOnce _ _, fun id hid id' hid' heq => ?_⟩
    subst heq
    obtain ⟨fs, hfs⟩ := h.found id hid
    exact (hunsent id fs hfs).1 ((hemitted id).1 hid').2 hid

end Accounted

/-! ### Runs -/

/-- A set of fields is registered only on fragments that are not released yet. -/
def RegistersEarly (p : Publisher ω) : Operation ω → Prop
  | .addFieldSet _ fragments => ∀ f ∈ fragments, f ∉ p.released
  | _ => True

/-- Items are completed or retired only of records that are no fragments. -/
def CompletesItems (p : Publisher ω) : Operation ω → Prop
  | .completeItems id _ => ∀ r, p.record? id ≠ some (.fragment r)
  | .retireItems id => ∀ r, p.record? id ≠ some (.fragment r)
  | _ => True

/-- The operation is one that a publisher expects. -/
def Expects (p : Publisher ω) (op : Operation ω) : Prop := p.RegistersEarly op ∧ p.CompletesItems op

/-- The next look for a result, after operations that emitted some sets of fields with fragments of theirs, delivers sets of
fields as a whole. -/
structure DeliversWhole (p : Publisher ω) (ops : List (Operation ω)) (emitted : List (RecordId × RecordId)) : Prop where
  /-- The deferred entries of the result are those of the sets that it emits. -/
  entries : ((p.nextResult?.2.map SubsequentResult.incremental).getD []).filterMap IncrementalEntry.deferred? =
    p.emissions.map p.emissionEntry
  /-- The fragment with which a set is emitted is released, and has no errors and no unfinished set. -/
  finished : ∀ e ∈ p.emissions, e.1 ∈ p.released ∧ ∃ r, p.record? e.1 = some (.fragment r) ∧ r.errors = [] ∧
    r.unfinished = [] ∧ e.2 ∈ r.fieldSets
  /-- The data of a set that is emitted is there, and it is that with which the set was completed. -/
  data : ∀ e ∈ p.emissions, ∃ r data, p.record? e.2 = some (.fieldSet r) ∧ r.data = some data ∧
    (p.emissionEntry e).data = data ∧ ∀ data', .completeFieldSet e.2 data' ∈ ops ↔ data' = data
  /-- All sets of a fragment without errors are emitted then, if they were not before. -/
  whole : ∀ id ∈ p.released, ∀ r, p.record? id = some (.fragment r) → r.errors = [] →
    ∀ set ∈ r.fieldSets, set ∈ (emitted ++ p.emissions).map Prod.snd

/-- An operation that is expected. -/
theorem Accounted.perform (h : p.Accounted done emitted) {op : Operation ω} (hop : p.Expects op) :
    (p.perform op).Accounted (done ++ op.completion?.toList) (emitted ++ (p.emitted op).map Prod.snd) := by
  have hspare : p.Spares (p.perform op) → op.completion? = none → p.emitted op = [] →
      (p.perform op).Accounted (done ++ op.completion?.toList) (emitted ++ (p.emitted op).map Prod.snd) := by
    intro hspares hcompletion hemitted
    rw [hcompletion, hemitted]
    simpa using h.spare hspares
  obtain ⟨hearly, hitems⟩ := hop
  cases op with
  | addFragment path label parent => exact hspare (.addFragment p path label parent) rfl rfl
  | addFieldSet path fragments =>
    have hadded := h.addFieldSet path hearly
    simpa [Publisher.perform, Publisher.emitted, Operation.completion?] using hadded
  | addStream path label hook => exact hspare (.of_records rfl rfl) rfl rfl
  | addItems stream path parent => exact hspare (.addItems p stream path parent) rfl rfl
  | completeFieldSet id data =>
    have hcompleted := h.completeFieldSet id data
    simpa [Publisher.perform, Publisher.emitted, Operation.completion?] using hcompleted
  | failFieldSet id error =>
    have hfailed := h.failFieldSet id error
    simpa [Publisher.perform, Publisher.emitted, Operation.completion?] using hfailed
  | completeItems id items => exact hspare (.settleItems hitems _) rfl rfl
  | failItems id error => exact hspare (.failItems p id error) rfl rfl
  | setFinal id => exact hspare (.modifyItems p id _) rfl rfl
  | setEnd id => exact hspare (.modifyItems p id _) rfl rfl
  | retireItems id => exact hspare (.settleItems hitems _) rfl rfl
  | addError id error => exact hspare (.modifyRecord p id (.addError error)) rfl rfl
  | filter nullPath erroring => exact hspare (.filter p nullPath erroring) rfl rfl
  | spawn work => exact hspare (.spawn p work) rfl rfl
  | takeInbox => exact hspare (.of_records rfl rfl) rfl rfl
  | close => exact hspare (.of_records rfl rfl) rfl rfl
  | respond => exact hspare (.respond p) rfl rfl
  | respondError => exact hspare (.trans (.takeErrors p) (.of_records rfl rfl)) rfl rfl
  | nextResult =>
    have hlooked := h.nextResult?
    simpa [Publisher.perform, Publisher.emitted, Operation.completion?] using hlooked

/-- What holds of sets of fields after expected operations. -/
theorem Performs.accounted {ops : List (Operation ω)} {emitted : List (RecordId × RecordId)}
    (h : Performs Expects ops emitted p) : p.Accounted (ops.filterMap Operation.completion?) (emitted.map Prod.snd) := by
  induction h with
  | start => exact .start
  | @step ops emitted p op _ hop ih =>
    have hop := ih.perform hop
    rw [List.filterMap_append, List.map_append]
    cases hcompletion : op.completion? with
    | none => simpa [hcompletion] using hop
    | some completion => simpa [hcompletion] using hop

/-- A set of fields that is completed or failed once is completed with one value. -/
theorem Operation.completion_unique {ops : List (Operation ω)} (h : (ops.filterMap Operation.settled?).Nodup)
    {id : RecordId} {data data' : Json} (hdata : .completeFieldSet id data ∈ ops)
    (hdata' : .completeFieldSet id data' ∈ ops) : data = data' := by
  induction ops with
  | nil => exact absurd hdata List.not_mem_nil
  | cons op rest ih =>
    have hmem : ∀ d, .completeFieldSet id d ∈ rest → id ∈ rest.filterMap Operation.settled? :=
      fun d hd => List.mem_filterMap.2 ⟨_, hd, rfl⟩
    rw [List.filterMap_cons] at h
    rcases List.mem_cons.1 hdata with heq | hrest <;> rcases List.mem_cons.1 hdata' with heq' | hrest'
    · cases heq.trans heq'.symm
      rfl
    · subst heq
      exact absurd (hmem _ hrest') (List.nodup_cons.1 h).1
    · subst heq'
      exact absurd (hmem _ hrest) (List.nodup_cons.1 h).1
    · refine ih ?_ hrest hrest'
      split at h
      · exact h
      · exact (List.nodup_cons.1 h).2

/-- **Sets of fields are delivered whole and once.**  After expected operations, among which each set of fields is completed
or failed at most once, no set was emitted twice, and the next look for a result delivers sets of fields as a whole. -/
theorem Performs.deliversWhole {ops : List (Operation ω)} {emitted : List (RecordId × RecordId)}
    (h : Performs Expects ops emitted p) (hsettled : (ops.filterMap Operation.settled?).Nodup) :
    (emitted.map Prod.snd).Nodup ∧ p.DeliversWhole ops emitted := by
  have haccounted := h.accounted
  -- the fragment of a set that is emitted, with the state of the set
  have hemission : ∀ e ∈ p.emissions, e.1 ∈ p.released ∧ ∃ r fs, p.record? e.1 = some (.fragment r) ∧ r.errors = [] ∧
      r.unfinished = [] ∧ e.2 ∈ r.fieldSets ∧ p.record? e.2 = some (.fieldSet fs) ∧
      ∃ data, fs.data = some data ∧ .completeFieldSet e.2 data ∈ ops := by
    intro e he
    obtain ⟨hid, -, hunsent, r, hr, herrors, hset⟩ := mem_emitting he
    obtain ⟨fs, hfs, hsent⟩ := isUnsent_iff.1 hunsent
    have hfinished : r.unfinished = [] := (haccounted.ready.ready e.1 hid r hr).resolve_right (not_not_intro herrors)
    obtain ⟨fs', hfs', hstate⟩ := (haccounted.tends e.1 r hr).listed e.2 hset
    cases hfs.symm.trans hfs'
    refine ⟨hid, r, fs, hr, herrors, hfinished, hset, hfs, ?_⟩
    rcases hstate with hopen | hfailed | hsettled
    · rw [hfinished] at hopen
      exact absurd hopen List.not_mem_nil
    · exact absurd herrors hfailed
    · rcases hsettled with hsent' | ⟨data, hdata, hdone⟩
      · exact absurd (hsent'.symm.trans hsent) (by simp)
      · obtain ⟨op, hop, hcompletion⟩ := List.mem_filterMap.1 hdone
        cases op
        case completeFieldSet =>
          cases hcompletion
          exact ⟨data, hdata, hop⟩
        all_goals cases hcompletion
  refine ⟨haccounted.nodup, deferred_nextResult? haccounted.ready.nodup haccounted.listsOnce, fun e he => ?_, fun e he => ?_,
    fun id hid r hr herrors set hset => ?_⟩
  · obtain ⟨hid, r, -, hr, herrors, hfinished, hset, -⟩ := hemission e he
    exact ⟨hid, r, hr, herrors, hfinished, hset⟩
  · obtain ⟨-, -, fs, -, -, -, -, hfs, data, hdata, hop⟩ := hemission e he
    refine ⟨fs, data, hfs, hdata, ?_, fun data' => ⟨fun hop' => Operation.completion_unique hsettled hop' hop, ?_⟩⟩
    · unfold emissionEntry
      rw [hfs]
      show fs.data.getD .null = data
      rw [hdata]
      rfl
    · rintro rfl
      exact hop
  · obtain ⟨fs, hfs, -⟩ := (haccounted.tends id r hr).listed set hset
    rw [List.map_append, List.mem_append]
    by_cases hsent : fs.sent = true
    · exact .inl ((haccounted.sent set fs hfs).1 hsent)
    · have hunsent : p.isUnsent set = true := isUnsent_iff.2 ⟨fs, hfs, by simpa using hsent⟩
      exact .inr ((mem_emitting_of_mem hid hr herrors hset hunsent).resolve_left List.not_mem_nil)

/-! ### A set of two fragments -/

/-- Two fragments share a set of fields, which is completed and sent before the other set of the second one is there. -/
def sharedSet : List (Operation Unit) :=
  [.addFragment (Path.root.key "a") none .initial, .addFragment (Path.root.key "b") none .initial,
    .addFieldSet .root [⟨1⟩, ⟨2⟩], .addFieldSet .root [⟨2⟩], .respond, .completeFieldSet ⟨3⟩ (.string "1"), .nextResult,
    .completeFieldSet ⟨4⟩ (.string "2")]

/-- The set that they share is emitted with the first fragment, and then only the other one with the second. -/
theorem sharedSet_deliversWhole : ∃ emitted p, Performs Expects sharedSet emitted p ∧
    (sharedSet.filterMap Operation.settled?).Nodup ∧ emitted = [(⟨1⟩, ⟨3⟩)] ∧ p.emissions = [(⟨2⟩, ⟨4⟩)] ∧
    (p.emissionEntry (⟨2⟩, ⟨4⟩)).data = .string "2" ∧ (emitted.map Prod.snd).Nodup ∧
    p.DeliversWhole sharedSet emitted := by
  have hsettled : (sharedSet.filterMap Operation.settled?).Nodup := by decide
  have hrun : ∃ emitted p, Performs Expects sharedSet emitted p ∧ emitted = [(⟨1⟩, ⟨3⟩)] ∧ p.emissions = [(⟨2⟩, ⟨4⟩)] ∧
      (p.emissionEntry (⟨2⟩, ⟨4⟩)).data = .string "2" := by
    refine ⟨_, _, ((((((((Performs.start.step ?_).step ?_).step ?_).step ?_).step ?_).step ?_).step ?_).step ?_), ?_, ?_, ?_⟩
    case refine_3 => exact ⟨fun _ _ => List.not_mem_nil, trivial⟩
    case refine_4 => exact ⟨fun _ _ => List.not_mem_nil, trivial⟩
    all_goals first | exact ⟨trivial, trivial⟩ | decide +kernel
  obtain ⟨emitted, p, hperforms, hemitted, hemissions, hdata⟩ := hrun
  obtain ⟨hnodup, hwhole⟩ := hperforms.deliversWhole hsettled
  exact ⟨emitted, p, hperforms, hsettled, hemitted, hemissions, hdata, hnodup, hwhole⟩

/-! ### Items of a fragment -/

/-- Items are completed of a fragment with a set of fields that is not completed. -/
def itemsOfFragment : List (Operation Unit) :=
  [.addFragment (Path.root.key "a") none .initial, .addFieldSet (Path.root.key "a") [⟨1⟩], .respond, .completeItems ⟨1⟩ []]

/-- The fragment is released by that, and the set is emitted without data. -/
theorem not_deliversWhole_itemsOfFragment : ∃ emitted p, Performs RegistersEarly itemsOfFragment emitted p ∧
    (itemsOfFragment.filterMap Operation.settled?).Nodup ∧ p.emissions = [(⟨1⟩, ⟨2⟩)] ∧
    (p.emissionEntry (⟨1⟩, ⟨2⟩)).data = .null ∧ ¬ p.DeliversWhole itemsOfFragment emitted := by
  have hrun : ∃ emitted p, Performs RegistersEarly itemsOfFragment emitted p ∧ p.emissions = [(⟨1⟩, ⟨2⟩)] ∧
      (p.emissionEntry (⟨1⟩, ⟨2⟩)).data = .null := by
    refine ⟨_, _, ((((Performs.start.step ?_).step ?_).step ?_).step ?_), ?_, ?_⟩
    case refine_2 => exact fun _ _ => List.not_mem_nil
    all_goals first | exact trivial | decide +kernel
  obtain ⟨emitted, p, hperforms, hemissions, hdata⟩ := hrun
  refine ⟨emitted, p, hperforms, by decide, hemissions, hdata, fun h => ?_⟩
  -- the set was never completed
  obtain ⟨-, data, -, -, -, hcompleted⟩ := h.data (⟨1⟩, ⟨2⟩) (hemissions ▸ List.mem_singleton_self _)
  have hmem := (hcompleted data).2 rfl
  simp [itemsOfFragment] at hmem

end Publisher

end GraphQL
