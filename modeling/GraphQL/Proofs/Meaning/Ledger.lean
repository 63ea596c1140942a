import GraphQL.Proofs.Delivery.Noted
import GraphQL.Proofs.Execution.Roots
import GraphQL.Proofs.Meaning.Inside
import GraphQL.Proofs.Meaning.Steady

/-!
# What the numbers stand for

Groups of fields, streams and sets of fields are known to a stage by their numbers only.  A ledger says which group, list
and fields each number stands for.  With it, `Job.Meant` says that whatever is still to be completed in a job stands where
it should: its type is declared at its place, and the resolvers give its value there.  `Task.Meant` says what a task has to
do with the record that it completes.  Both hold for longer as the ledger is continued (`Ledger.Later`).

Errors that become null while a record is completed are noted at the record.  `Ledger.Allows` says which errors those may
be: they may be noted in what the record stands for.
-/

namespace GraphQL

/-- A streamed list: the type of its items, its place, its items, and how they are streamed. -/
structure StreamedList where
  type : TypeRef
  place : Place
  source : ItemSource
  usage : StreamUsage

namespace StreamedList

variable (c : ExecutionContext) (list : StreamedList)

/-- A streamed item.  Its fields are asked for by a group of their own. -/
def child (position : Nat) (item : FieldValue) : Child :=
  ⟨list.type, { list.place.index position with group := list.usage.group }, .ok item⟩

/-- The resolvers give the list at its place, and it is streamed. -/
def IsAsked : Prop :=
  ∃ type v, c.ValueAt type list.place v ∧ c.demand type list.place v = .items list.type list.source ∧
    c.Streams list.place.group list.place.path (.ok (some list.usage))

/-- The item comes to the value. -/
def Gives (position : Nat) (v : Json) : Prop :=
  ∃ item, list.source.outcomes[position]? = some (.ok item) ∧ Settles c (.child (list.child position item)) (.ok v)

/-- The stream fails at the item: the item comes to the error, or the source does. -/
inductive Fails : Nat → Error → Prop
  | item {position item e} (hitem : list.source.outcomes[position]? = some (.ok item))
      (h : Settles c (.child (list.child position item)) (.error e)) : Fails position e
  | source {position e} (h : list.source.outcomes[position]? = some (.error e)) :
      Fails position (e.toError.locate list.usage.group list.place.path)

end StreamedList

/-- What the numbers of groups, streams and sets of fields stand for. -/
structure Ledger where
  groups : Nat → FieldGroup
  lists : StreamId → StreamedList
  sets : RecordId → Selected

namespace Publisher

/-- The record stands for items of a stream, from the item at a position of its list on. -/
def IsAt (p : Publisher Task) (l : Ledger) (stream : StreamId) (id : RecordId) (position : Nat) : Prop :=
  ∃ r, p.record? id = some (.items r) ∧ r.stream = stream ∧ r.path = (l.lists stream).place.path.index position

/-- The path of what a record stands for. -/
def seat (p : Publisher Task) (id : RecordId) : Path :=
  match p.record? id with
  | some (.fieldSet r) => r.path
  | some (.items r) => r.path
  | _ => .root

theorem IsAt.isItems {p : Publisher Task} {l : Ledger} {stream : StreamId} {id : RecordId} {position : Nat}
    (h : p.IsAt l stream id position) : p.IsItems id := by
  obtain ⟨r, hr, -⟩ := h
  exact ⟨r, hr⟩

theorem IsAt.seat {p : Publisher Task} {l : Ledger} {stream : StreamId} {id : RecordId} {position : Nat}
    (h : p.IsAt l stream id position) : p.seat id = (l.lists stream).place.path.index position := by
  obtain ⟨r, hr, -, hpath⟩ := h
  unfold Publisher.seat
  rw [hr]
  exact hpath

theorem IsAt.not_isFieldSet {p : Publisher Task} {l : Ledger} {stream : StreamId} {id : RecordId} {position : Nat}
    (h : p.IsAt l stream id position) : ¬ p.IsFieldSet id := by
  obtain ⟨r, hr, -⟩ := h
  rintro ⟨r', hr'⟩
  exact absurd (hr.symm.trans hr') (by simp)

/-- The place of the record tells which item it is. -/
theorem IsAt.unique {p : Publisher Task} {l : Ledger} {stream stream' : StreamId} {id : RecordId} {position position' : Nat}
    (h : p.IsAt l stream id position) (h' : p.IsAt l stream' id position') : stream = stream' ∧ position = position' := by
  obtain ⟨r, hr, rfl, hpath⟩ := h
  obtain ⟨r', hr', rfl, hpath'⟩ := h'
  obtain rfl : r = r' := by simpa using hr.symm.trans hr'
  exact ⟨rfl, (Path.index_inj.1 (hpath.symm.trans hpath')).2⟩

theorem seat_initial {p : Publisher Task} {id : RecordId} {r : InitialRecord} (hr : p.record? id = some (.initial r)) :
    p.seat id = .root := by
  unfold Publisher.seat
  rw [hr]

theorem seat_fieldSet {p : Publisher Task} {id : RecordId} {r : FieldSetRecord} (hr : p.record? id = some (.fieldSet r)) :
    p.seat id = r.path := by
  unfold Publisher.seat
  rw [hr]

/-- The path of what a record stands for stays the same. -/
theorem Grows.seat {n : Nat} {p q : Publisher Task} (h : Grows n p q) {id : RecordId} (hid : id.index < p.records.size) :
    q.seat id = p.seat id := by
  obtain ⟨r, hr⟩ := exists_record? hid
  obtain ⟨r', hr', hg⟩ := h.records id r hr
  unfold Publisher.seat
  rw [hr, hr']
  cases hg with
  | initial => rfl
  | fragment => rfl
  | fieldSet hpath => exact hpath
  | items _ hpath => exact hpath

end Publisher

namespace Ledger

variable (c : ExecutionContext) (l : Ledger) (p : Publisher Task)

/-- What a record stands for: the fields of the operation, the fields of a set, or an item of a streamed list. -/
inductive Asks : RecordId → Asked → Prop
  | initial {r collected} (hr : p.record? .initial = some (.initial r)) (h : c.collected = .ok collected) :
      Asks .initial (c.asked (c.opening collected))
  | fields {id} (h : p.IsFieldSet id) : Asks id (c.asked (l.sets id))
  | item {id stream position item} (h : p.IsAt l stream id position)
      (hitem : (l.lists stream).source.outcomes[position]? = some (.ok item)) :
      Asks id (.child ((l.lists stream).child position item))

/-- Inside of what a record stands for, something is asked for at a path. -/
def Encloses (home : RecordId) (path : Path) (b : Asked) : Prop :=
  ∃ a steps, l.Asks c p home a ∧ a.Leads c steps b ∧ path = (p.seat home).below steps

/-- Inside of what a record stands for, the list is asked for. -/
def EnclosesList (home : RecordId) (list : StreamedList) : Prop :=
  ∃ type v, c.demand type list.place v = .items list.type list.source ∧
    l.Encloses c p home list.place.path (.value type list.place v)

/-- The group stands under its number. -/
structure Knows (m : Memory) (group : FieldGroup) : Prop where
  lt : group.id < m.collector.nextGroup
  eq : l.groups group.id = group
  precedes : group.Precedes m.collector

variable (s : ExecStage) (home : RecordId)

/-- A value is asked for at a site. -/
structure Covers (type : TypeRef) (site : Site) (v : FieldValue) : Prop where
  value : c.ValueAt type site.place v
  within : l.Encloses c s.publisher home site.path (.value type site.place v)
  known : l.Knows s.memory site.group
  serves : s.publisher.Serves home site.record site.deferMap
  rooted : s.publisher.Rooted home site.group site.deferMap

/-- The fields are asked for, with others perhaps. -/
structure CoversFields (o : ObjectFields) : Prop where
  fields : ∃ all, c.FieldsAt { o.selected with fields := all } ∧ o.fields ⊆ all ∧
    l.Encloses c s.publisher home o.path (c.asked { o.selected with fields := all })
  serves : s.publisher.Serves home o.record o.deferMap
  groups : ∀ field ∈ o.fields, l.Knows s.memory field.2 ∧ s.publisher.Rooted home field.2 o.deferMap

/-- Items from a position on are those of a list that is asked for at a site. -/
structure CoversItems (type : TypeRef) (site : Site) (usage : Option StreamUsage) (position : Nat)
    (source : ItemSource) : Prop where
  list : ∃ listType v whole, l.Covers c s home listType site v ∧
    c.demand listType site.place v = .items type whole ∧ whole.drop position = source
  streams : c.Streams site.group site.path (.ok usage)
  known : ∀ u, usage = some u → l.Knows s.memory u.group
  within : ∀ u, usage = some u → position ≤ u.initialCount

end Ledger

/-! ### Jobs and tasks -/

namespace Job

mutual

/-- What is to be completed in a job stands where it should. -/
def Meant (c : ExecutionContext) (l : Ledger) (s : ExecStage) (home : RecordId) : Job → Prop
  | .field _ site value => s.publisher.Serves home site.record site.deferMap ∧ value.Meant c l s home
  | .failed _ => True
  | .complete type site v => l.Covers c s home type site v
  | .await type site _ outcome =>
    s.publisher.Serves home site.record site.deferMap ∧ ∀ v, outcome = .ok v → l.Covers c s home type site v
  | .nonNull _ value => value.Meant c l s home
  | .gather _ _ children => MeantSlots c l s home children
  | .iterate type site usage source items =>
    l.CoversItems c s home type site usage items.length source.source ∧ MeantJobs c l s home items
  | .select fields => l.CoversFields c s home fields
  | .serial fields _ (some (_, job)) remaining =>
    l.CoversFields c s home { fields with fields := remaining } ∧ job.Meant c l s home
  | .serial fields _ none remaining => l.CoversFields c s home { fields with fields := remaining }

/-- What is to be completed in children stands where it should. -/
def MeantSlots (c : ExecutionContext) (l : Ledger) (s : ExecStage) (home : RecordId) : List (Slot Job) → Prop
  | [] => True
  | .running job :: rest => job.Meant c l s home ∧ MeantSlots c l s home rest
  | .finished _ :: rest => MeantSlots c l s home rest

/-- What is to be completed in jobs stands where it should. -/
def MeantJobs (c : ExecutionContext) (l : Ledger) (s : ExecStage) (home : RecordId) : List Job → Prop
  | [] => True
  | job :: rest => job.Meant c l s home ∧ MeantJobs c l s home rest

end

end Job

namespace Publisher

/-- The errors that were noted at the record are told. -/
def Told (p : Publisher Task) (id : RecordId) (told : Error → Prop) : Prop := ∀ e ∈ p.noted id, told e

/-- What is asked for comes to the value if what was noted at the record is told. -/
def Gives (c : ExecutionContext) (p : Publisher Task) (id : RecordId) (asked : Asked) (v : Json) : Prop :=
  ∀ told, p.Told id told → asked.Comes c told (.out (.ok v))

theorem Gives.settles {c : ExecutionContext} {p : Publisher Task} {id : RecordId} {asked : Asked} {v : Json}
    (h : p.Gives c id asked v) : Settles c asked (.ok v) :=
  (h _ fun _ he => he).settles rfl

theorem Gives.mono {c : ExecutionContext} {p q : Publisher Task} {id : RecordId} {asked : Asked} {v : Json}
    (h : p.Gives c id asked v) (hnoted : p.noted id ⊆ q.noted id) : q.Gives c id asked v :=
  fun told htold => h told fun e he => htold e (hnoted he)

end Publisher

/-- What may become of the job may become of what is asked for, if what was noted at the record is told. -/
def Job.Answers (c : ExecutionContext) (p : Publisher Task) (id : RecordId) (job : Job) (asked : Asked) : Prop :=
  ∀ told, p.Told id told → ∀ fate, job.Comes c told fate → asked.Comes c told fate

namespace Ledger

variable (c : ExecutionContext) (l : Ledger) (p : Publisher Task)

variable {c l p} {id : RecordId} {asked : Asked}

theorem Asks.of_initial (h : l.Asks c p id asked) {r : InitialRecord} (hr : p.record? id = some (.initial r)) :
    ∃ collected, c.collected = .ok collected ∧ asked = c.asked (c.opening collected) := by
  cases h with
  | initial _ hcollected => exact ⟨_, hcollected, rfl⟩
  | fields hid =>
    obtain ⟨r', hr'⟩ := hid
    exact absurd (hr.symm.trans hr') (by simp)
  | item hat =>
    obtain ⟨r', hr', -⟩ := hat
    exact absurd (hr.symm.trans hr') (by simp)

theorem Asks.of_isFieldSet (h : l.Asks c p id asked) (hid : p.IsFieldSet id) : asked = c.asked (l.sets id) := by
  obtain ⟨r, hr⟩ := hid
  cases h with
  | initial hr' => exact absurd (hr.symm.trans hr') (by simp)
  | fields => rfl
  | item hat =>
    obtain ⟨r', hr', -⟩ := hat
    exact absurd (hr.symm.trans hr') (by simp)

theorem Asks.of_isAt (h : l.Asks c p id asked) {stream : StreamId} {position : Nat} {item : FieldValue}
    (hat : p.IsAt l stream id position) (hitem : (l.lists stream).source.outcomes[position]? = some (.ok item)) :
    asked = .child ((l.lists stream).child position item) := by
  cases h with
  | initial hr' =>
    obtain ⟨r, hr, -⟩ := hat
    exact absurd (hr.symm.trans hr') (by simp)
  | fields hid => exact absurd hid hat.not_isFieldSet
  | @item _ _ _ item' hat' hitem' =>
    obtain ⟨rfl, rfl⟩ := hat.unique hat'
    obtain rfl : item = item' := by simpa using hitem.symm.trans hitem'
    rfl

theorem Asks.isHome (h : l.Asks c p id asked) : p.IsHome id := by
  cases h with
  | initial hr => exact ⟨_, hr, fun _ => nofun⟩
  | fields hid => exact hid.isHome
  | item hat => exact hat.isItems.isHome

namespace Encloses

variable {home : RecordId} {path : Path} {o : Selected} {type : TypeRef} {place : Place} {v : FieldValue}

theorem self (h : l.Asks c p home asked) : l.Encloses c p home (p.seat home) asked :=
  ⟨asked, [], h, .self, (Path.below_nil _).symm⟩

theorem lt_size (h : l.Encloses c p home path asked) : home.index < p.records.size := by
  obtain ⟨a, steps, hasks, -⟩ := h
  exact hasks.isHome.lt_size

theorem awaited (h : l.Encloses c p home path (.value type place v)) {later : FieldValue}
    (hdemand : c.demand type place v = .value later) : l.Encloses c p home path (.value type place later) := by
  obtain ⟨a, steps, hasks, hleads, hpath⟩ := h
  exact ⟨a, steps, hasks, hleads.awaited hdemand, hpath⟩

theorem required (h : l.Encloses c p home path (.value type place v)) {inner : TypeRef}
    (hdemand : c.demand type place v = .required inner) : l.Encloses c p home path (.value inner place v) := by
  obtain ⟨a, steps, hasks, hleads, hpath⟩ := h
  exact ⟨a, steps, hasks, hleads.required hdemand, hpath⟩

theorem object (h : l.Encloses c p home path (.value type place v)) {typeName : String} {parent : Json}
    {collected : CollectedFields} (hdemand : c.demand type place v = .object typeName parent)
    (hcollected : c.Collects typeName place.group (.ok collected)) :
    l.Encloses c p home path (c.asked ⟨typeName, parent, place.path, collected.fields⟩) := by
  obtain ⟨a, steps, hasks, hleads, hpath⟩ := h
  exact ⟨a, steps, hasks, hleads.object hdemand hcollected, hpath⟩

theorem field (h : l.Encloses c p home path (c.asked o)) {key : String} {child : Child}
    (hchild : (key, child) ∈ c.children o) : l.Encloses c p home (path.key key) (.child child) := by
  obtain ⟨a, steps, hasks, hleads, rfl⟩ := h
  exact ⟨a, _, hasks, hleads.field hchild, Path.below_key _ _ _⟩

theorem item (h : l.Encloses c p home path (.value type place v)) {itemType : TypeRef} {source : ItemSource}
    {usage : Option StreamUsage} {position : Nat} {item : FieldValue}
    (hdemand : c.demand type place v = .items itemType source) (husage : c.Streams place.group place.path (.ok usage))
    (hfirst : ∀ u, usage = some u → position < u.initialCount) (hitem : source.outcomes[position]? = some (.ok item)) :
    l.Encloses c p home (path.index position) (.child ⟨itemType, place.index position, .ok item⟩) := by
  obtain ⟨a, steps, hasks, hleads, rfl⟩ := h
  exact ⟨a, _, hasks, hleads.item hdemand husage hfirst hitem, Path.below_index _ _ _⟩

theorem value {child : Child} (h : l.Encloses c p home path (.child child)) (hv : child.result = .ok v) :
    l.Encloses c p home path (.value child.type child.place v) := by
  obtain ⟨type, place, result⟩ := child
  obtain rfl : result = .ok v := hv
  obtain ⟨a, steps, hasks, hleads, hpath⟩ := h
  exact ⟨a, steps, hasks, hleads.child, hpath⟩

end Encloses

theorem EnclosesList.lt_size {home : RecordId} {list : StreamedList} (h : l.EnclosesList c p home list) :
    home.index < p.records.size := by
  obtain ⟨_, _, -, hwithin⟩ := h
  exact hwithin.lt_size

variable (c l p)

/-- The error may be noted at the record. -/
def Allows (id : RecordId) (e : Error) : Prop := ∃ asked, l.Asks c p id asked ∧ asked.Comes c (fun _ => True) (.note e)

end Ledger

/-- The fetcher brings the items of the list from its next index on. -/
structure Fetcher.Brings (f : Fetcher) (list : StreamedList) : Prop where
  type : f.itemType = list.type
  group : f.group = list.usage.group
  info : f.info = list.place.info
  path : f.path = list.place.path
  source : f.source.source = list.source.drop f.index

/-- What a task has to do with its record: it completes the fields at the path of a set, or an item of a streamed list,
or fetches the items from that of its record on. -/
def Task.Meant (c : ExecutionContext) (l : Ledger) (s : ExecStage) : Task → Prop
  | .fieldSet path id data => data.Meant c l s id ∧
    (∃ r, s.publisher.record? id = some (.fieldSet r) ∧ r.path = path) ∧
    c.FieldsAt (l.sets id) ∧ (l.sets id).path = path ∧ data.Answers c s.publisher id (c.asked (l.sets id))
  | .item _ id value => value.Meant c l s id ∧ ∃ stream position item, s.publisher.IsAt l stream id position ∧
    (l.lists stream).source.outcomes[position]? = some (.ok item) ∧
    value.Answers c s.publisher id (.child ((l.lists stream).child position item))
  | .fetch f => s.publisher.IsAt l f.stream f.record f.index ∧ f.Brings (l.lists f.stream)

/-! ### Later on -/

/-- What records stand for stays the same while records are added. -/
structure Ledger.Keeps (l : Ledger) (p : Publisher Task) (l' : Ledger) (q : Publisher Task) : Prop where
  lists : ∀ stream : StreamId, stream.index < p.streams.size → l'.lists stream = l.lists stream
  sets : ∀ id : RecordId, id.index < p.records.size → l'.sets id = l.sets id
  grows : Publisher.Grows p.records.size p q

/-- The ledger is continued while records are added. -/
structure Ledger.Carries (l : Ledger) (s : ExecStage) (l' : Ledger) (s' : ExecStage) : Prop extends
    Ledger.Keeps l s.publisher l' s'.publisher where
  groups : ∀ id < s.memory.collector.nextGroup, l'.groups id = l.groups id
  nextGroup : s.memory.collector.nextGroup ≤ s'.memory.collector.nextGroup
  nextUsage : s.memory.collector.nextUsage ≤ s'.memory.collector.nextUsage
  linked : s.publisher.Linked → s'.publisher.Linked

/-- The ledger is continued while work runs. -/
structure Ledger.Later (l : Ledger) (s : ExecStage) (l' : Ledger) (s' : ExecStage) : Prop extends
    Ledger.Carries l s l' s' where
  pending : s'.publisher.pending = s.publisher.pending
  noted : ∀ id, s.publisher.noted id ⊆ s'.publisher.noted id

theorem Publisher.lt_size_of_stream? {p : Publisher Task} {id : StreamId} {st : StreamRecord}
    (h : p.stream? id = some st) : id.index < p.streams.size :=
  (Array.getElem?_eq_some_iff.1 h).1

/-- More is noted. -/
theorem Job.Answers.mono {c : ExecutionContext} {p q : Publisher Task} {id : RecordId} {job : Job} {asked : Asked}
    (h : job.Answers c p id asked) (hnoted : p.noted id ⊆ q.noted id) : job.Answers c q id asked :=
  fun told htold => h told fun e he => htold e (hnoted he)

namespace Ledger.Keeps

variable {c : ExecutionContext} {l l' : Ledger} {p q : Publisher Task} (hl : p.Linked)
include hl

/-- The list of a stream with a record stays the same. -/
theorem lists_of_isAt (h : l.Keeps p l' q) {stream : StreamId} {id : RecordId} {position : Nat}
    (hat : p.IsAt l stream id position) : l'.lists stream = l.lists stream := by
  obtain ⟨r, hr, rfl, -⟩ := hat
  obtain ⟨st, hst⟩ := hl.streams id r hr
  exact h.lists _ (Publisher.lt_size_of_stream? hst)

theorem isAt (h : l.Keeps p l' q) {stream : StreamId} {id : RecordId} {position : Nat}
    (hat : p.IsAt l stream id position) : q.IsAt l' stream id position := by
  have hlists := h.lists_of_isAt hl hat
  obtain ⟨r, hr, rfl, hpath⟩ := hat
  obtain ⟨r', hr', hg⟩ := h.grows.records id _ hr
  cases hg with
  | items hs hp => exact ⟨_, hr', hs, by rw [hp, hpath, hlists]⟩

/-- Records that were there stood for the same items. -/
theorem isAt_old (h : l.Keeps p l' q) {stream : StreamId} {id : RecordId} {position : Nat}
    (hat : q.IsAt l' stream id position) (hlt : id.index < p.records.size) : p.IsAt l stream id position := by
  obtain ⟨r', hr', rfl, hpath⟩ := hat
  obtain ⟨r, hr, hg⟩ := h.grows.old hr' hlt
  cases hg with
  | @items r _ hstream hpath' =>
    obtain ⟨st, hst⟩ := hl.streams id r hr
    refine ⟨r, hr, hstream.symm, ?_⟩
    rw [← hpath', hpath, hstream, h.lists _ (Publisher.lt_size_of_stream? hst)]

/-- What a record stands for stays the same. -/
theorem asks (h : l.Keeps p l' q) {id : RecordId} {asked : Asked} (ha : l.Asks c p id asked) : l'.Asks c q id asked := by
  cases ha with
  | initial hr hcollected =>
    obtain ⟨r', hr', hg⟩ := h.grows.records .initial _ hr
    cases hg with
    | initial => exact .initial hr' hcollected
  | fields hid =>
    rw [← h.sets id hid.isHome.lt_size]
    exact .fields (h.grows.isFieldSet hid)
  | item hat hitem =>
    have hlists := h.lists_of_isAt hl hat
    rw [← hlists] at hitem ⊢
    exact .item (h.isAt hl hat) hitem

/-- What is asked for inside stays inside. -/
theorem encloses (h : l.Keeps p l' q) {home : RecordId} {path : Path} {b : Asked} (hb : l.Encloses c p home path b) :
    l'.Encloses c q home path b := by
  obtain ⟨a, steps, hasks, hleads, rfl⟩ := hb
  exact ⟨a, steps, h.asks hl hasks, hleads, by rw [h.grows.seat hasks.isHome.lt_size]⟩

theorem enclosesList (h : l.Keeps p l' q) {home : RecordId} {list : StreamedList} (hlist : l.EnclosesList c p home list) :
    l'.EnclosesList c q home list := by
  obtain ⟨type, v, hdemand, hwithin⟩ := hlist
  exact ⟨type, v, hdemand, h.encloses hl hwithin⟩

end Ledger.Keeps

namespace Ledger.Carries

variable {c : ExecutionContext} {l l' l'' : Ledger} {s s' s'' : ExecStage} {home : RecordId}

theorem size_streams (h : l.Carries s l' s') : s.publisher.streams.size ≤ s'.publisher.streams.size := by
  by_contra hlt
  have hlt : s'.publisher.streams.size < s.publisher.streams.size := Nat.not_le.1 hlt
  obtain ⟨st, hst, -⟩ := h.grows.streams ⟨s'.publisher.streams.size⟩ _ (Array.getElem?_eq_getElem hlt)
  exact Nat.lt_irrefl _ (Publisher.lt_size_of_stream? hst)

theorem knows (h : l.Carries s l' s') {group : FieldGroup} (hk : l.Knows s.memory group) : l'.Knows s'.memory group where
  lt := Nat.lt_of_lt_of_le hk.lt h.nextGroup
  eq := (h.groups _ hk.lt).trans hk.eq
  precedes := ⟨Nat.lt_of_lt_of_le hk.precedes.1 h.nextUsage,
    fun usage hu => Nat.lt_of_lt_of_le (hk.precedes.2 usage hu) h.nextUsage⟩

section

variable (hl : s.publisher.Linked)
include hl

theorem rooted (h : l.Carries s l' s') {group : FieldGroup} {m : DeferMap}
    (hr : s.publisher.Rooted home group m) (hhome : s.publisher.IsHome home) : s'.publisher.Rooted home group m :=
  hr.grows h.grows (h.linked hl) hhome.lt_size

theorem covers (h : l.Carries s l' s') {type : TypeRef} {site : Site} {v : FieldValue}
    (hc : l.Covers c s home type site v) : l'.Covers c s' home type site v :=
  ⟨hc.value, h.encloses hl hc.within, h.knows hc.known, h.grows.serves hc.serves, h.rooted hl hc.rooted hc.serves.home⟩

theorem coversFields (h : l.Carries s l' s') {o : ObjectFields} (ho : l.CoversFields c s home o) :
    l'.CoversFields c s' home o := by
  obtain ⟨all, hall, hsub, hwithin⟩ := ho.fields
  exact ⟨⟨all, hall, hsub, h.encloses hl hwithin⟩, h.grows.serves ho.serves, fun field hfield =>
    ⟨h.knows (ho.groups field hfield).1, h.rooted hl (ho.groups field hfield).2 ho.serves.home⟩⟩

theorem coversItems (h : l.Carries s l' s') {type : TypeRef} {site : Site} {usage : Option StreamUsage} {position : Nat}
    {source : ItemSource} (hi : l.CoversItems c s home type site usage position source) :
    l'.CoversItems c s' home type site usage position source := by
  obtain ⟨⟨listType, v, whole, hcovers, hrest⟩, husage, hknown, hwithin⟩ := hi
  exact ⟨⟨listType, v, whole, h.covers hl hcovers, hrest⟩, husage, fun u hu => h.knows (hknown u hu), hwithin⟩

end

mutual

theorem meant (h : l.Carries s l' s') (hl : s.publisher.Linked) : ∀ {j : Job}, j.Meant c l s home → j.Meant c l' s' home
  | .field _ _ value, hj => ⟨h.grows.serves hj.1, meant h hl (j := value) hj.2⟩
  | .failed _, _ => trivial
  | .complete .., hj => h.covers hl hj
  | .await .., hj => ⟨h.grows.serves hj.1, fun v hv => h.covers hl (hj.2 v hv)⟩
  | .nonNull _ value, hj => meant h hl (j := value) hj
  | .gather _ _ children, hj => meantSlots h hl children hj
  | .iterate _ _ _ _ items, hj => ⟨h.coversItems hl hj.1, meantJobs h hl items hj.2⟩
  | .select _, hj => h.coversFields hl hj
  | .serial _ _ (some (_, job)) _, hj => ⟨h.coversFields hl hj.1, meant h hl (j := job) hj.2⟩
  | .serial _ _ none _, hj => h.coversFields hl hj

theorem meantSlots (h : l.Carries s l' s') (hl : s.publisher.Linked) :
    ∀ slots : List (Slot Job), Job.MeantSlots c l s home slots → Job.MeantSlots c l' s' home slots
  | [], _ => trivial
  | .running job :: rest, hj => ⟨meant h hl (j := job) hj.1, meantSlots h hl rest hj.2⟩
  | .finished _ :: rest, hj => meantSlots h hl rest hj

theorem meantJobs (h : l.Carries s l' s') (hl : s.publisher.Linked) :
    ∀ jobs : List Job, Job.MeantJobs c l s home jobs → Job.MeantJobs c l' s' home jobs
  | [], _ => trivial
  | job :: rest, hj => ⟨meant h hl (j := job) hj.1, meantJobs h hl rest hj.2⟩

end

theorem allows (h : l.Carries s l' s') (hl : s.publisher.Linked) {id : RecordId} {e : Error}
    (ha : l.Allows c s.publisher id e) : l'.Allows c s'.publisher id e := by
  obtain ⟨asked, hasks, he⟩ := ha
  exact ⟨asked, h.asks hl hasks, he⟩

/-- A task does what it should as long as nothing that was noted at its record is taken away. -/
theorem task (h : l.Carries s l' s') (hl : s.publisher.Linked) {task : Task}
    (hnoted : s.publisher.noted task.record ⊆ s'.publisher.noted task.record) (ht : task.Meant c l s) :
    task.Meant c l' s' := by
  cases task with
  | fieldSet path id data =>
    obtain ⟨hdata, ⟨r, hr, hpath⟩, hfields⟩ := ht
    rw [← h.sets id (Publisher.lt_size_of_record? hr)] at hfields
    obtain ⟨hfields, hsetPath, hanswers⟩ := hfields
    obtain ⟨r', hr', hg⟩ := h.grows.records id _ hr
    cases hg with
    | fieldSet hp =>
      exact ⟨h.meant hl hdata, ⟨_, hr', hp.trans hpath⟩, hfields, hsetPath, hanswers.mono hnoted⟩
  | item listPath id value =>
    obtain ⟨hvalue, stream, position, item, hat, hitem, hanswers⟩ := ht
    have hlists := h.lists_of_isAt hl hat
    rw [← hlists] at hitem hanswers
    exact ⟨h.meant hl hvalue, stream, position, item, h.isAt hl hat, hitem, hanswers.mono hnoted⟩
  | fetch f =>
    obtain ⟨hat, hbrings⟩ := ht
    exact ⟨h.isAt hl hat, by rw [h.lists_of_isAt hl hat]; exact hbrings⟩

end Ledger.Carries

namespace Ledger.Later

variable {l l' l'' : Ledger} {s s' s'' : ExecStage}

theorem refl (l : Ledger) (s : ExecStage) : l.Later s l s :=
  ⟨⟨⟨fun _ _ => rfl, fun _ _ => rfl, Publisher.Grows.refl _⟩, fun _ _ => rfl, Nat.le_refl _, Nat.le_refl _, fun h => h⟩,
    rfl, fun _ => List.Subset.refl _⟩

theorem trans (h : l.Later s l' s') (h' : l'.Later s' l'' s'') : l.Later s l'' s'' where
  groups id hid := (h'.groups id (Nat.lt_of_lt_of_le hid h.nextGroup)).trans (h.groups id hid)
  lists stream hs := (h'.lists stream (Nat.lt_of_lt_of_le hs h.size_streams)).trans (h.lists stream hs)
  sets id hid := (h'.sets id (Nat.lt_of_lt_of_le hid h.grows.size_le)).trans (h.sets id hid)
  nextGroup := Nat.le_trans h.nextGroup h'.nextGroup
  nextUsage := Nat.le_trans h.nextUsage h'.nextUsage
  grows := h.grows.trans (h'.grows.mono h.grows.size_le)
  linked := fun hl => h'.linked (h.linked hl)
  pending := h'.pending.trans h.pending
  noted id := List.Subset.trans (h.noted id) (h'.noted id)

end Ledger.Later

/-! ### Jobs of children -/

namespace Job

variable {c : ExecutionContext} {l : Ledger} {s : ExecStage} {home : RecordId}

theorem meantSlots_iff {slots : List (Slot Job)} :
    MeantSlots c l s home slots ↔ ∀ job, Slot.running job ∈ slots → job.Meant c l s home := by
  induction slots with
  | nil => simp [MeantSlots]
  | cons slot rest ih => cases slot <;> simp [MeantSlots, ih]

theorem meantJobs_iff {jobs : List Job} : MeantJobs c l s home jobs ↔ ∀ job ∈ jobs, job.Meant c l s home := by
  induction jobs with
  | nil => simp [MeantJobs]
  | cons job rest ih => simp [MeantJobs, ih]

mutual

/-- What stands where it should is reported for the record. -/
theorem Meant.sites : ∀ {j : Job}, j.Meant c l s home → j.Sites (s.publisher.Serves home)
  | .field _ _ value, hj => ⟨hj.1, Meant.sites (j := value) hj.2⟩
  | .failed _, _ => trivial
  | .complete .., hj => hj.serves
  | .await .., hj => hj.1
  | .nonNull _ value, hj => Meant.sites (j := value) hj
  | .gather _ _ children, hj => MeantSlots.sites children hj
  | .iterate _ _ _ _ items, hj =>
    have ⟨_, _, _, hcovers, _⟩ := hj.1.list
    ⟨hcovers.serves, MeantJobs.sites items hj.2⟩
  | .select _, hj => hj.serves
  | .serial _ _ (some (_, job)) _, hj => ⟨hj.1.serves, Meant.sites (j := job) hj.2⟩
  | .serial _ _ none _, hj => hj.serves

theorem MeantSlots.sites : ∀ slots : List (Slot Job), MeantSlots c l s home slots →
    SitesOfSlots (s.publisher.Serves home) slots
  | [], _ => trivial
  | .running job :: rest, hj => ⟨Meant.sites (j := job) hj.1, MeantSlots.sites rest hj.2⟩
  | .finished _ :: rest, hj => MeantSlots.sites rest hj

theorem MeantJobs.sites : ∀ jobs : List Job, MeantJobs c l s home jobs → SitesOfJobs (s.publisher.Serves home) jobs
  | [], _ => trivial
  | job :: rest, hj => ⟨Meant.sites (j := job) hj.1, MeantJobs.sites rest hj.2⟩

end

/-- Children that were not run. -/
theorem meant_gather (shape : Shape) (started : Bool) {jobs : List Job} (h : ∀ job ∈ jobs, job.Meant c l s home) :
    (Job.gather shape started (jobs.map .running)).Meant c l s home := by
  show MeantSlots c l s home (jobs.map .running)
  rw [meantSlots_iff]
  intro job hjob
  obtain ⟨job', hjob', heq⟩ := List.mem_map.1 hjob
  cases heq
  exact h job hjob'

end Job

namespace Ledger

variable {c : ExecutionContext} {l : Ledger} {s : ExecStage} {home : RecordId}

/-- The job of one of the fields. -/
theorem CoversFields.child {o : ObjectFields} (h : l.CoversFields c s home o) {key : String} {group : FieldGroup}
    {child : Child} (hfield : (key, group) ∈ o.fields) (hchild : c.child? o.selected key group = some child) :
    (child.job o.record o.deferMap).Meant c l s home := by
  obtain ⟨all, hall, hsub, hwithin⟩ := h.fields
  obtain ⟨hknown, hrooted⟩ := h.groups _ hfield
  have hmem : (key, child) ∈ c.children { o.selected with fields := all } :=
    List.mem_filterMap.2 ⟨(key, group), hsub hfield, by
      show Option.map (key, ·) (c.child? o.selected key group) = _
      rw [hchild]
      rfl⟩
  obtain ⟨definition, -, rfl⟩ := Option.map_eq_some_iff.1 hchild
  unfold Child.job
  dsimp only
  split
  · rename_i v hv
    have hvalue := ExecutionContext.ValueAt.field hall (v := v) (by rw [← hv]; exact hmem)
    exact ⟨h.serves, hvalue, (hwithin.field hmem).value hv, hknown, h.serves, hrooted⟩
  · exact ⟨h.serves, trivial⟩

/-- The job of fields that are resolved together. -/
theorem CoversFields.job {o : ObjectFields} (h : l.CoversFields c s home o) : (o.job c).Meant c l s home := by
  unfold ObjectFields.job
  rw [show ((c.children o.selected).map fun f => Slot.running (f.2.job o.record o.deferMap)) =
    ((c.children o.selected).map fun f => f.2.job o.record o.deferMap).map .running by simp]
  refine Job.meant_gather _ _ fun job hjob => ?_
  obtain ⟨f, hf, rfl⟩ := List.mem_map.1 hjob
  obtain ⟨field, hfield, heq⟩ := List.mem_filterMap.1 hf
  obtain ⟨child, hchild, rfl⟩ := Option.map_eq_some_iff.1 heq
  exact h.child hfield hchild

/-- The list is asked for inside of what the record of the site stands for. -/
theorem Covers.enclosesList {type listType : TypeRef} {site : Site} {v : FieldValue} {source : ItemSource}
    (h : l.Covers c s home listType site v) (hdemand : c.demand listType site.place v = .items type source)
    (usage : StreamUsage) : l.EnclosesList c s.publisher site.record ⟨type, site.place, source, usage⟩ := by
  rw [h.serves.record]
  exact ⟨listType, v, hdemand, h.within⟩

/-- The job of an item that is delivered with its list. -/
theorem Covers.itemJob {type listType : TypeRef} {site : Site} {v : FieldValue} {source : ItemSource} {position : Nat}
    {item : FieldValue} (h : l.Covers c s home listType site v)
    (hdemand : c.demand listType site.place v = .items type source) {usage : Option StreamUsage}
    (husage : c.Streams site.group site.path (.ok usage)) (hfirst : ∀ u, usage = some u → position < u.initialCount)
    (hitem : source.outcomes[position]? = some (.ok item)) :
    (Execution.itemJob type site position item).Meant c l s home :=
  ⟨h.serves, ExecutionContext.ValueAt.item h.value hdemand hitem,
    (h.within.item hdemand husage hfirst hitem).value rfl, h.known, h.serves, h.rooted⟩

/-- A group whose fields are all met in the initial result. -/
theorem reached_newStreamUsage {group : FieldGroup} {nextGroup : Nat} {u : StreamUsage}
    (h : Execution.newStreamUsage c group nextGroup = .ok (some u)) :
    (∀ t ∈ u.group.reached, t = .initial) ∧ u.group.targets = .initial ∧ u.group.id = nextGroup := by
  unfold Execution.newStreamUsage at h
  split at h
  · exact absurd h (by simp)
  · split at h
    · exact absurd h (by simp)
    · exact absurd h (by simp)
    · split at h
      · exact absurd h (by simp)
      · split at h
        · exact absurd h (by simp)
        · cases h
          refine ⟨fun t ht => ?_, rfl, rfl⟩
          obtain ⟨d, hd, rfl⟩ := List.mem_map.1 ht
          rcases List.mem_cons.1 hd with rfl | hd
          · rfl
          · obtain ⟨d', -, rfl⟩ := List.mem_map.1 hd
            rfl

/-- A list that is streamed with a usage. -/
theorem reached_streams {group : FieldGroup} {path : Path} {u : StreamUsage}
    (h : c.Streams group path (.ok (some u))) : (∀ t ∈ u.group.reached, t = .initial) ∧ u.group.targets = .initial := by
  unfold ExecutionContext.Streams at h
  split at h
  · exact absurd h (by simp)
  · obtain ⟨nextGroup, h⟩ := h
    obtain ⟨hreached, htargets, -⟩ := reached_newStreamUsage h
    exact ⟨hreached, htargets⟩

/-- Of the job of a streamed item may become what may become of the item, and it stands where it should. -/
theorem streamedItemJob {list : StreamedList} {stream : StreamId} (hlist : l.lists stream = list)
    (hasked : list.IsAsked c) (hknown : l.Knows s.memory list.usage.group)
    {position : Nat} {item : FieldValue} (hitem : list.source.outcomes[position]? = some (.ok item)) {record : RecordId}
    (hat : s.publisher.IsAt l stream record position) {path : Path} (hpath : path = list.place.path.index position) :
    (Execution.streamedItemJob list.type list.usage.group list.place.info path record item).Meant c l s record ∧
      (Execution.streamedItemJob list.type list.usage.group list.place.info path record item).Answers c s.publisher record
        (.child (list.child position item)) := by
  subst hpath hlist
  have hwithin := Encloses.self (.item (c := c) hat hitem)
  have hrecord := hat.isItems
  rw [hat.seat] at hwithin
  obtain ⟨type, v, hv, hdemand, husage⟩ := hasked
  obtain ⟨hreached, htargets⟩ := reached_streams husage
  have hserves : s.publisher.Serves record record [] := ⟨rfl, hrecord.isHome, by simp⟩
  refine ⟨⟨hserves, ⟨ExecutionContext.ValueAt.streamed hv hdemand husage hitem, hwithin.value rfl, hknown, hserves, ?_⟩⟩,
    fun told _ fate hfate => ?_⟩
  · exact ⟨Publisher.Roots.start hat.not_isFieldSet hreached, fun _ => htargets⟩
  · exact (((l.lists stream).child position item).comes_job record [] told fate).1 hfate

end Ledger

end GraphQL
