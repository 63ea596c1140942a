import GraphQL.Proofs.Meaning.Conforms
import GraphQL.Proofs.Meaning.Fates

/-!
# What may become of jobs

A job stands for the values that are still to be completed in it, so of it may become what may become of these
(`Job.Comes`).  Wherever a job goes on as another one, nothing may become of the other one but what may become of it.
-/

namespace GraphQL

variable {c : ExecutionContext}

/-! ### Parts that are put together -/

/-- A part that has come to its outcome. -/
def Only (outcome : Except Error Json) : Fate → Prop := fun fate => fate = .out outcome

/-- Parts of which less may become. -/
def PartsWithin (parts parts' : List (Fate → Prop)) : Prop :=
  List.Forall₂ (fun part part' => ∀ fate, part fate → part' fate) parts parts'

theorem PartsWithin.refl (parts : List (Fate → Prop)) : PartsWithin parts parts := by
  induction parts with
  | nil => exact .nil
  | cons part rest ih => exact .cons (fun _ h => h) ih

theorem PartsWithin.trans {ps qs rs : List (Fate → Prop)} (h : PartsWithin ps qs) (h' : PartsWithin qs rs) :
    PartsWithin ps rs := by
  induction h generalizing rs with
  | nil => exact h'
  | cons hhead _ ih =>
    cases h' with
    | cons hhead' htail' => exact .cons (fun fate hfate => hhead' fate (hhead fate hfate)) (ih htail')

/-- What becomes of a part of which less may become. -/
theorem PartsWithin.exists_mem {parts parts' : List (Fate → Prop)} (h : PartsWithin parts parts') {fate : Fate}
    (hfate : ∃ part ∈ parts, part fate) : ∃ part ∈ parts', part fate := by
  induction h with
  | nil => exact hfate
  | @cons p q ps qs hhead _ ih =>
    obtain ⟨part, hpart, hfate⟩ := hfate
    rcases List.mem_cons.1 hpart with rfl | hpart
    · exact ⟨q, List.mem_cons_self, hhead _ hfate⟩
    · obtain ⟨part', hpart', hfate'⟩ := ih ⟨part, hpart, hfate⟩
      exact ⟨part', List.mem_cons_of_mem _ hpart', hfate'⟩

theorem Gathers.mono {shape : Shape} {ps qs : List (Fate → Prop)} {fate : Fate} (h : Gathers shape ps fate)
    (hle : PartsWithin ps qs) : Gathers shape qs fate := by
  cases fate with
  | note e => exact hle.exists_mem h
  | out out =>
    rcases h with ⟨values, hvalues, rfl⟩ | ⟨part, hpart, e, he, rfl⟩
    · refine .inl ⟨values, ?_, rfl⟩
      induction hle generalizing values with
      | nil => exact hvalues
      | cons hhead _ ih =>
        cases hvalues with
        | cons hv hvs => exact .cons (hhead _ hv) (ih _ hvs)
    · obtain ⟨part', hpart', he'⟩ := hle.exists_mem ⟨part, hpart, he⟩
      exact .inr ⟨part', hpart', e, he', rfl⟩

theorem Child.Fates.mono {told : Error → Prop} {type : TypeRef} {place : Place} {value value' : Fate → Prop} {fate : Fate}
    (h : Child.Fates told type place value fate) (hle : ∀ fate, value fate → value' fate) :
    Child.Fates told type place value' fate := by
  cases fate with
  | out out =>
    obtain ⟨result, hresult, hout⟩ := h
    exact ⟨result, hle _ hresult, hout⟩
  | note e =>
    rcases h with h | ⟨hnull, raw, hraw, he⟩
    · exact .inl (hle _ h)
    · exact .inr ⟨hnull, raw, hle _ hraw, he⟩

theorem FieldInfo.Fates.mono {info : FieldInfo} {value value' : Fate → Prop} {fate : Fate} (h : info.Fates value fate)
    (hle : ∀ fate, value fate → value' fate) : info.Fates value' fate := by
  cases fate with
  | out out =>
    obtain ⟨result, hresult, hout⟩ := h
    exact ⟨result, hle _ hresult, hout⟩
  | note e => exact hle _ h

/-! ### Items of a source -/

namespace ItemSource

/-- The items after the first ones. -/
def drop (source : ItemSource) (count : Nat) : ItemSource := ⟨source.outcomes.drop count, source.ends⟩

theorem first?_zero (source : ItemSource) : source.first? (some 0) = some (.ok []) := by
  simp [first?, pure, Except.pure]

theorem first?_nil (count : Option Nat) : first? ⟨[], true⟩ count = some (.ok []) := by
  cases count <;> simp [first?, pure, Except.pure]

theorem first?_error (e : ResolverError) {count : Option Nat} (h : count ≠ some 0) :
    first? ⟨[.error e], true⟩ count = some (.error e) := by
  cases count with
  | none => rfl
  | some n =>
    cases n with
    | zero => exact absurd rfl h
    | succ n => simp [first?, bind, Except.bind]

/-- An item that is there comes first. -/
theorem first?_cons (item : FieldValue) (outcomes : List Resolved) (ends : Bool) {count : Option Nat}
    (h : count ≠ some 0) :
    first? ⟨.ok item :: outcomes, ends⟩ count =
      (first? ⟨outcomes, ends⟩ (count.map (· - 1))).map fun items => items.map (item :: ·) := by
  have hcons : ∀ outs : List Resolved, ((.ok item :: outs).mapM id : Except ResolverError (List FieldValue)) =
      (outs.mapM id).map (item :: ·) := by
    intro outs
    rw [List.mapM_cons]
    cases List.mapM id outs <;> rfl
  cases count with
  | none =>
    cases ends with
    | false => rfl
    | true => exact congrArg some (hcons outcomes)
  | some n =>
    cases n with
    | zero => exact absurd rfl h
    | succ n =>
      by_cases hthere : ends = true ∨ n ≤ outcomes.length
      · have h₁ : (ends || decide (n + 1 ≤ outcomes.length + 1)) = true := by simpa using hthere
        have h₂ : (ends || decide (n ≤ outcomes.length)) = true := by simpa using hthere
        simp only [first?, Option.map_some, Option.any_some, List.length_cons, Nat.add_sub_cancel, h₁, h₂, if_true,
          Option.getD_some, List.take_succ_cons, hcons]
      · have h₁ : (ends || decide (n + 1 ≤ outcomes.length + 1)) = false := by simpa using hthere
        have h₂ : (ends || decide (n ≤ outcomes.length)) = false := by simpa using hthere
        simp only [first?, Option.map_some, Option.any_some, List.length_cons, Nat.add_sub_cancel, h₁, h₂,
          Bool.false_eq_true, if_false, Option.map_none]

end ItemSource

/-! ### Jobs -/

namespace Job

mutual

/-- What may become of a job, if errors that became null are told. -/
def Comes (c : ExecutionContext) (told : Error → Prop) : Job → Fate → Prop
  | .field type site value => Child.Fates told type site.place (value.Comes c told)
  | .failed e => Only (.error e)
  | .complete type site value => (Asked.value type site.place value).Comes c told
  | .await type site _ outcome => (Asked.value type site.place (.later none 0 outcome)).Comes c told
  | .nonNull info value => info.Fates (value.Comes c told)
  | .gather shape _ children => Gathers shape (partsOfSlots c told children)
  | .iterate type site usage source items => fun fate =>
    (∃ e, source.source.first? (usage.map (·.initialCount - items.length)) = some (.error e) ∧
      fate = .out (.error (e.toError.locate site.group site.path))) ∨
    ∃ rest, source.source.first? (usage.map (·.initialCount - items.length)) = some (.ok rest) ∧
      Gathers .list ((partsOfJobs c told items).reverse ++
        (itemChildren type site.place items.length rest).map fun child => (Asked.child child).Comes c told) fate
  | .select fields => (c.asked fields.selected).Comes c told
  | .serial fields done (some (key, job)) remaining =>
    let rest := c.children { fields.selected with fields := remaining }
    Gathers (.object (done.map Prod.fst ++ key :: rest.map Prod.fst))
      (done.map (fun entry => Only (.ok entry.2)) ++
        job.Comes c told :: rest.map fun field => (Asked.child field.2).Comes c told)
  | .serial fields done none remaining =>
    let rest := c.children { fields.selected with fields := remaining }
    Gathers (.object (done.map Prod.fst ++ rest.map Prod.fst))
      (done.map (fun entry => Only (.ok entry.2)) ++ rest.map fun field => (Asked.child field.2).Comes c told)

/-- What may become of children. -/
def partsOfSlots (c : ExecutionContext) (told : Error → Prop) : List (Slot Job) → List (Fate → Prop)
  | [] => []
  | .running job :: rest => job.Comes c told :: partsOfSlots c told rest
  | .finished outcome :: rest => Only outcome :: partsOfSlots c told rest

/-- What may become of jobs. -/
def partsOfJobs (c : ExecutionContext) (told : Error → Prop) : List Job → List (Fate → Prop)
  | [] => []
  | job :: rest => job.Comes c told :: partsOfJobs c told rest

end

variable {told : Error → Prop}

/-- Nothing may become of the job but what may become of another one. -/
def Within (c : ExecutionContext) (told : Error → Prop) (job job' : Job) : Prop :=
  ∀ fate, job.Comes c told fate → job'.Comes c told fate

/-- What may become of a slot. -/
def part (c : ExecutionContext) (told : Error → Prop) : Slot Job → Fate → Prop
  | .running job => job.Comes c told
  | .finished outcome => Only outcome

theorem partsOfSlots_eq (slots : List (Slot Job)) : partsOfSlots c told slots = slots.map (part c told) := by
  induction slots with
  | nil => rfl
  | cons slot rest ih =>
    cases slot <;>
    · rw [partsOfSlots, ih]
      rfl

theorem partsOfJobs_eq (jobs : List Job) : partsOfJobs c told jobs = jobs.map (Comes c told) := by
  induction jobs with
  | nil => rfl
  | cons job rest ih => rw [partsOfJobs, ih, List.map_cons]

end Job

/-- The job of a child, for the record that delivers it. -/
def Child.job (child : Child) (record : RecordId) (deferMap : DeferMap) : Job :=
  let site := child.place.site record deferMap
  match child.result with
  | .ok v => .field child.type site (.complete child.type site v)
  | .error e => .field child.type site (.failed e)

/-- What may become of the job of a child may become of the child. -/
theorem Child.comes_job (child : Child) (record : RecordId) (deferMap : DeferMap) (told : Error → Prop) (fate : Fate) :
    (child.job record deferMap).Comes c told fate ↔ (Asked.child child).Comes c told fate := by
  obtain ⟨type, place, result⟩ := child
  cases result with
  | ok v => exact comes_child_iff.symm
  | error e => exact comes_unresolved_iff.symm

/-! ### Steps and runs -/

/-- What may become of a step. -/
def Progress.Comes (c : ExecutionContext) (told : Error → Prop) : Progress → Fate → Prop
  | .done outcome => Only outcome
  | .go job => job.Comes c told

/-- What may become of a job that ran. -/
def Ran.Comes (c : ExecutionContext) (told : Error → Prop) : Ran → Fate → Prop
  | .done outcome => Only outcome
  | .waiting job => job.Comes c told

end GraphQL
