import GraphQL.Proofs.Delivery.Contents
import GraphQL.Proofs.Delivery.Duties
import GraphQL.Proofs.Meaning.Memory

/-!
# Moves with a meaning

A deed is a move of which a ledger says what it means: a new set of fields stands near the record that it was met in, a
new stream has a list that is asked for, a new record of items follows the one before it, an error is noted that may be
noted in what the record stands for, and items are completed with what the item of their list comes to.  The completion of
a set of fields is not among the deeds: it is the last that is done for a task.
-/

namespace GraphQL

open Stage

/-- What records deliver, the streams and what is owed stay. -/
structure Publisher.Leaves (p q : Publisher Task) : Prop where
  eases : p.Eases (fun _ => False) False q
  contents : ∀ id, q.content id = p.content id
  noted : ∀ id, q.noted id = p.noted id
  streams : q.streams = p.streams

/-- The ledger with a list for a stream. -/
def Ledger.withList (l : Ledger) (stream : StreamId) (list : StreamedList) : Ledger :=
  { l with lists := Function.update l.lists stream list }

/-- The ledger with fields for a set. -/
def Ledger.withSet (l : Ledger) (id : RecordId) (fields : Selected) : Ledger :=
  { l with sets := Function.update l.sets id fields }

/-- An item of the list comes to the value if what was noted at the record is told. -/
def StreamedList.GivesFor (c : ExecutionContext) (list : StreamedList) (p : Publisher Task) (id : RecordId)
    (position : Nat) (v : Json) : Prop :=
  ∃ item, list.source.outcomes[position]? = some (.ok item) ∧ p.Gives c id (.child (list.child position item)) v

theorem StreamedList.GivesFor.gives {c : ExecutionContext} {list : StreamedList} {p : Publisher Task} {id : RecordId}
    {position : Nat} {v : Json} (h : list.GivesFor c p id position v) : list.Gives c position v := by
  obtain ⟨item, hitem, hgives⟩ := h
  exact ⟨item, hitem, hgives.settles⟩

/-- What running work does at a time, with the records in hand and the ledger before and after. -/
inductive Deed (c : ExecutionContext) : Ledger → List RecordId → ExecStage → Ledger → List RecordId → ExecStage → Prop
  | aside {l l' hand s hand' s'} (hlists : l'.lists = l.lists) (hsets : l'.sets = l.sets) (m : Move hand s hand' s')
      (h : s.publisher.Leaves s'.publisher) : Deed c l hand s l' hand' s'
  | error {l hand s} {id : RecordId} (e : Error) (hid : s.publisher.IsHome id) (h : l.Allows c s.publisher id e) :
      Deed c l hand s l hand (s.withPublisher (s.publisher.addError id e))
  | fieldSet {l hand s} {home : RecordId} (path : Path) (fields : Selected) {fragments : List RecordId}
      (hfragments : ∀ f ∈ fragments, s.publisher.IsFragment f) (hhome : home ∈ hand ∨ s.publisher.pending = [])
      (hroots : ∀ f ∈ fragments, s.publisher.Near home f ∨ s.publisher.AfterFragments f)
      (hwithin : ∃ all, l.Encloses c s.publisher home path (c.asked { fields with fields := all })) :
      Deed c l hand s (l.withSet ⟨s.publisher.records.size⟩ fields) ((s.publisher.addFieldSet path fragments).2 :: hand)
        (s.withPublisher (s.publisher.addFieldSet path fragments).1)
  | stream {l hand s} (list : StreamedList) (hook : Option HookId) (hlist : list.IsAsked c) :
      Deed c l hand s (l.withList ⟨s.publisher.streams.size⟩ list) hand
        (s.withPublisher (s.publisher.addStream list.place.path list.usage.label hook).1)
  | items {l hand s} {stream : StreamId} {path : Path} {parent : RecordId} {position : Nat}
      (hparent : parent.index < s.publisher.records.size) (hpath : s.publisher.ItemPath stream path)
      (hposition : path = (l.lists stream).place.path.index position)
      (hlast : s.publisher.Unused stream ∧ position = (l.lists stream).usage.initialCount ∧
          l.EnclosesList c s.publisher parent (l.lists stream) ∨
        s.publisher.Tail stream parent ∧ ∃ before, s.publisher.IsAt l stream parent before ∧ position = before + 1)
      (hidle : s.Idle stream) :
      Deed c l hand s l ((s.publisher.addItems stream path parent).2 :: hand)
        (s.withPublisher (s.publisher.addItems stream path parent).1)
  | final {l hand s} {stream : StreamId} {id : RecordId} (hlast : s.publisher.Tail stream id) (hidle : s.Idle stream) :
      Deed c l hand s l hand (s.withPublisher (s.publisher.setFinal id))
  | failSet {l hand s} {id : RecordId} (e : Error) (hid : s.publisher.IsFieldSet id) :
      Deed c l (id :: hand) s l hand (s.withPublisher (s.publisher.failFieldSet id e))
  | completeItems {l hand s} {stream : StreamId} {id : RecordId} {position : Nat} {v : Json}
      (hat : s.publisher.IsAt l stream id position) (hv : (l.lists stream).GivesFor c s.publisher id position v) :
      Deed c l (id :: hand) s l hand (s.withPublisher (s.publisher.completeItems id [v]))
  | failItems {l hand s} {listPath : Path} {stream : StreamId} {id : RecordId} {position : Nat} {e : Error}
      (hid : s.publisher.AwaitsItem listPath id) (hat : s.publisher.IsAt l stream id position)
      (he : (l.lists stream).Fails c position e) :
      Deed c l (id :: hand) s l hand
        ((s.publishAndClose fun p => p.filter listPath id).publishAndClose fun p => p.failItems id e)
  | endItems {l hand s} {stream : StreamId} {id : RecordId} (hlast : s.publisher.Tail stream id) :
      Deed c l (id :: hand) s l hand (s.withPublisher ((s.publisher.setEnd id).completeItems id []))
  | retireItems {l hand s} {stream : StreamId} {id : RecordId} (hlast : s.publisher.Tail stream id) :
      Deed c l (id :: hand) s l hand (s.withPublisher (s.publisher.retireItems id))

/-- A series of deeds. -/
inductive Deeds (c : ExecutionContext) (l : Ledger) (hand : List RecordId) (s : ExecStage) :
    Ledger → List RecordId → ExecStage → Prop
  | refl : Deeds c l hand s l hand s
  | step {l' hand' s' l'' hand'' s''} (h : Deeds c l hand s l' hand' s') (d : Deed c l' hand' s' l'' hand'' s'') :
      Deeds c l hand s l'' hand'' s''

variable {c : ExecutionContext} {l l' l'' : Ledger} {hand hand' hand'' : List RecordId} {s s' s'' : ExecStage}

theorem Publisher.Tail.isItems {p : Publisher Task} {stream : StreamId} {id : RecordId} (h : p.Tail stream id) :
    p.IsItems id := by
  obtain ⟨⟨r, hr, -⟩, -⟩ := h
  exact ⟨r, hr⟩

namespace Deed

/-- A deed is a move. -/
theorem move (d : Deed c l hand s l' hand' s') : Move hand s hand' s' := by
  cases d with
  | aside _ _ m => exact m
  | error e hid => exact .error e hid
  | fieldSet path _ hfragments => exact .fieldSet path hfragments
  | stream list hook => exact .stream _ _ _
  | items hparent hpath _ hlast hidle => exact .items hparent hpath (hlast.imp And.left And.left) hidle
  | final hlast hidle => exact .final hlast hidle
  | failSet e hid => exact .failSet e hid
  | completeItems hat => exact .completeItems _ hat.isItems
  | failItems hid => exact .failItems _ hid
  | endItems hlast => exact .endItems hlast
  | retireItems hlast => exact .retireItems hlast.isItems

/-- Lists of streams that are there stay the same. -/
theorem lists (d : Deed c l hand s l' hand' s') (stream : StreamId) (h : stream.index < s.publisher.streams.size) :
    l'.lists stream = l.lists stream := by
  cases d with
  | aside hlists => rw [hlists]
  | stream =>
    exact Function.update_of_ne (by rintro rfl; exact Nat.lt_irrefl _ h) _ _
  | _ => rfl

/-- Fields of sets that are there stay the same. -/
theorem sets (d : Deed c l hand s l' hand' s') (id : RecordId) (h : id.index < s.publisher.records.size) :
    l'.sets id = l.sets id := by
  cases d with
  | aside _ hsets => rw [hsets]
  | fieldSet =>
    exact Function.update_of_ne (by rintro rfl; exact Nat.lt_irrefl _ h) _ _
  | _ => rfl

end Deed

namespace Deeds

theorem of_deed (d : Deed c l hand s l' hand' s') : Deeds c l hand s l' hand' s' := refl.step d

theorem trans (h : Deeds c l hand s l' hand' s') (h' : Deeds c l' hand' s' l'' hand'' s'') :
    Deeds c l hand s l'' hand'' s'' := by
  induction h' with
  | refl => exact h
  | step _ d ih => exact ih.step d

theorem moves (h : Deeds c l hand s l' hand' s') : Moves hand s hand' s' := by
  induction h with
  | refl => exact Moves.refl
  | step _ d ih => exact ih.step d.move

end Deeds

/-! ### Moves that leave contents and duties -/

namespace Publisher.Leaves

variable {p q u : Publisher Task}

theorem refl (p : Publisher Task) : p.Leaves p := ⟨Eases.refl p, fun _ => rfl, fun _ => rfl, rfl⟩

theorem trans (h : p.Leaves q) (h' : q.Leaves u) : p.Leaves u :=
  ⟨h.eases.trans h'.eases, fun id => (h'.contents id).trans (h.contents id), fun id => (h'.noted id).trans (h.noted id),
    h'.streams.trans h.streams⟩

theorem of_same (h : p.Same q) : p.Leaves q := ⟨Eases.of_same h, content_same h, noted_same h, h.streams⟩

theorem addFragment (p : Publisher Task) (path : Path) (label : Option String) (parent : RecordId) :
    p.Leaves (p.addFragment path label parent).1 :=
  ⟨(Eases.push p rfl).trans (Eases.addChild _ _ _), content_addFragment p path label parent,
    noted_addFragment p path label parent,
    List.foldlRecOn (motive := fun q : Publisher Task => q.streams = p.streams) _ _ rfl fun _ hq _ _ => hq⟩

theorem filter (s : ExecStage) (path : Path) (id : RecordId) :
    s.publisher.Leaves (s.publishAndClose fun p => p.filter path id).publisher := by
  refine Leaves.trans (q := (s.publisher.filter path id).1)
    ⟨Eases.filter _ path id, content_filter _ path id, noted_filter _ path id, ?_⟩
    (of_same (same_publishAndClose s fun p => p.filter path id))
  exact List.foldlRecOn (motive := fun q : Publisher Task => q.streams = s.publisher.streams) _ _ rfl
    fun _ hq _ _ => hq

end Publisher.Leaves

/-! ### Errors that are noted -/

/-- What was noted stays so, and what is new may be noted. -/
structure Ledger.Notes (c : ExecutionContext) (l : Ledger) (p q : Publisher Task) : Prop where
  kept : ∀ id, p.noted id ⊆ q.noted id
  allowed : ∀ id, ∀ e ∈ q.noted id, e ∈ p.noted id ∨ l.Allows c p id e

theorem Ledger.Notes.of_eq {p q : Publisher Task} (h : ∀ id, q.noted id = p.noted id) : l.Notes c p q :=
  ⟨fun id => by rw [h]; exact List.Subset.refl _, fun id e he => .inl (h id ▸ he)⟩

namespace Deed

open Publisher

/-- A deed notes only what may be noted. -/
theorem notes (d : Deed c l hand s l' hand' s') : l.Notes c s.publisher s'.publisher := by
  cases d with
  | aside _ _ _ h => exact .of_eq h.noted
  | @error _ _ id e hid h =>
    have hnoted := noted_addError hid e
    refine ⟨fun j e' he => ?_, fun j e' he => ?_⟩
    · show e' ∈ (s.publisher.addError id e).noted j
      rw [hnoted]
      split
      · rename_i heq
        exact List.mem_append_left _ (heq ▸ he)
      · exact he
    · have he : e' ∈ (s.publisher.addError id e).noted j := he
      rw [hnoted] at he
      split at he
      · rename_i heq
        subst heq
        rcases List.mem_append.1 he with he | he
        · exact .inl he
        · exact .inr (List.mem_singleton.1 he ▸ h)
      · exact .inl he
  | fieldSet path _ _ => exact .of_eq (noted_addFieldSet _ path _)
  | stream => exact .of_eq fun _ => rfl
  | items => exact .of_eq (noted_addItems _ _ _ _)
  | final => exact .of_eq (noted_setFinal _ _)
  | failSet e => exact .of_eq (noted_failFieldSet _ _ e)
  | completeItems => exact .of_eq (noted_completeItems _ _ _)
  | @failItems _ _ listPath _ id _ e =>
    refine .of_eq fun j => ?_
    refine (noted_same (same_publishAndClose _ fun p => p.failItems id e) j).trans ((noted_failItems _ id e j).trans ?_)
    exact (Publisher.Leaves.filter s listPath id).noted j
  | endItems => exact .of_eq (noted_endItems _ _)
  | retireItems => exact .of_eq (noted_retireItems _ _)

end Deed

end GraphQL
