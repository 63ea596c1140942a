import GraphQL.Proofs.Execution.OutputTypes
import GraphQL.Proofs.Execution.Watched
import GraphQL.Proofs.Meaning.Conforms

/-!
# Completing values of output types

`Watches schema m' m s P` says that the watched step `m'` does what the step `m` does from the stage `s`, so all calls in it
are allowed, and that what it leads to is meant: its outcome has the property `P`, and the tasks are for output types.  This
is shown here for the completion of values of output types and for the resolution of fields of object types.
-/

namespace GraphQL

open Execution Stage

variable {schema : Schema} {s : ExecStage} {α β : Type}

/-- The watched step does the same as the step, with an outcome that has a property. -/
def Watches (schema : Schema) (m' m : ExecM α) (s : ExecStage) (P : α → Prop) : Prop :=
  m'.run s = m.run s ∧ LeadsTyped schema m s P

namespace Watches

variable {P : α → Prop} {R : β → Prop}

/-- A step without calls that are watched. -/
theorem same {m : ExecM α} (h : LeadsTyped schema m s P) : Watches schema m m s P := ⟨rfl, h⟩

theorem pure {a : α} (h : s.Typed schema) (ha : P a) : Watches schema (Pure.pure a) (Pure.pure a) s P :=
  same (Leads.pure ⟨h, ha⟩)

theorem failure : Watches schema (failure : ExecM α) Alternative.failure s P := same Leads.failure

/-- One step after the other. -/
theorem bind {m' m : ExecM α} {k' k : α → ExecM β} (h : Watches schema m' m s P)
    (hk : ∀ a s', s'.Typed schema → P a → Watches schema (k' a) (k a) s' R) :
    Watches schema (m' >>= k') (m >>= k) s R := by
  obtain ⟨heq, hleads⟩ := h
  refine ⟨?_, Leads.andThen hleads fun a s' ⟨hs', ha⟩ => (hk a s' hs' ha).2⟩
  rw [StateT.run_bind, StateT.run_bind, heq]
  cases hrun : m.run s with
  | none => rfl
  | some p =>
    obtain ⟨hs', ha⟩ := hleads p.1 p.2 hrun
    exact (hk p.1 p.2 hs' ha).1

/-- A step without calls that are watched, before another step. -/
theorem step {m : ExecM α} {k' k : α → ExecM β} (h : LeadsTyped schema m s P)
    (hk : ∀ a s', s'.Typed schema → P a → Watches schema (k' a) (k a) s' R) :
    Watches schema (m >>= k') (m >>= k) s R :=
  bind (same h) hk

theorem get_bind {k' k : ExecStage → ExecM β} (h : Watches schema (k' s) (k s) s R) :
    Watches schema (MonadState.get >>= k') (MonadState.get >>= k) s R :=
  ⟨h.1, Leads.bind (Leads.get h.2)⟩

theorem set_bind {t : ExecStage} {k' k : PUnit → ExecM β} (h : Watches schema (k' ⟨⟩) (k ⟨⟩) t R) :
    Watches schema (MonadStateOf.set t >>= k') (MonadStateOf.set t >>= k) s R :=
  ⟨h.1, Leads.bind (Leads.set h.2)⟩

theorem modify_bind {f : ExecStage → ExecStage} {k' k : PUnit → ExecM β} (h : Watches schema (k' ⟨⟩) (k ⟨⟩) (f s) R) :
    Watches schema (modify f >>= k') (modify f >>= k) s R :=
  ⟨h.1, Leads.bind (Leads.modify h.2)⟩

theorem ite {b : Prop} [Decidable b] {m' m n' n : ExecM α} (hm : b → Watches schema m' m s P)
    (hn : ¬ b → Watches schema n' n s P) : Watches schema (if b then m' else n') (if b then m else n) s P := by
  split
  · exact hm ‹_›
  · exact hn ‹_›

/-- A call that is allowed. -/
theorem watch {c : ExecutionContext} {call : Watched.Call} (hcall : c.schema.allows call = true) {m' m : ExecM α}
    (h : Watches schema m' m s P) : Watches schema (Watched.watch c call >>= fun _ => m') m s P := by
  unfold Watched.watch
  rw [if_pos hcall]
  exact h

end Watches

variable {c : ExecutionContext}

theorem Schema.allows_completeObject {typeName : String} (h : schema.IsObject typeName) :
    schema.allows (.completeObject typeName) = true :=
  decide_eq_true (show schema.typeKind? typeName = some .object from h)

theorem Schema.allows_fieldJob {parentType : String} (h : schema.IsObject parentType) :
    schema.allows (.fieldJob parentType) = true :=
  decide_eq_true (show schema.typeKind? parentType = some .object from h)

/-! ### Fields -/

section Fields

variable (hfields : c.schema.OutputFields) {o : ObjectFields} (ho : c.schema.IsObject o.typeName)
include hfields ho

theorem watches_fieldJob (key : String) (group : FieldGroup) (h : s.Typed c.schema) :
    Watches c.schema (Watched.fieldJob c o key group) (fieldJob c o key group) s fun job? =>
      ∀ job, job? = some job → job.Typed c.schema := by
  unfold Watched.fieldJob
  refine Watches.watch (Schema.allows_fieldJob ho) (Watches.same (Quiet.typed ?_ h))
  unfold fieldJob
  dsimp only
  split
  · exact Quiet.pure (by simp)
  · rename_i definition hdefinition
    refine Quiet.bind (quiet_resolveField _ _ _ _ _) fun outcome _ => ?_
    cases outcome with
    | error e =>
      refine Quiet.pure fun job heq => ?_
      cases heq
      exact trivial
    | ok value =>
      refine Quiet.pure fun job heq => ?_
      cases heq
      exact hfields _ _ _ hdefinition

theorem watches_fieldJobs (fields : GroupedFieldSet) (h : s.Typed c.schema) :
    Watches c.schema (Watched.fieldJobs c o fields) (fieldJobs c o fields) s fun jobs =>
      ∀ j ∈ jobs, j.2.Typed c.schema := by
  induction fields generalizing s with
  | nil => exact Watches.pure h (by simp)
  | cons field rest ih =>
    obtain ⟨key, group⟩ := field
    refine Watches.bind (watches_fieldJob hfields ho key group h) fun job? s' h' hjob => ?_
    cases job? with
    | none => exact ih h'
    | some job =>
      refine Watches.bind (ih h') fun jobs s'' h'' hjobs => Watches.pure h'' fun j hj => ?_
      rcases List.mem_cons.1 hj with rfl | hj
      · exact hjob job rfl
      · exact hjobs j hj

theorem watches_selectFields (h : s.Typed c.schema) :
    Watches c.schema (Watched.selectFields c o) (selectFields c o) s fun job => job.Typed c.schema := by
  refine Watches.bind (watches_fieldJobs hfields ho o.fields h) fun jobs s' h' hjobs => Watches.pure h' ?_
  rw [show (jobs.map fun j => Slot.running j.2) = (jobs.map Prod.snd).map .running by simp]
  refine Job.typed_gather _ _ fun job hjob => ?_
  obtain ⟨j, hj, rfl⟩ := List.mem_map.1 hjob
  exact hjobs j hj

/-- The tasks for deferred sets resolve fields of the same object. -/
theorem watches_spawnFieldSets (sets : List (NewFieldSet × RecordId)) (h : s.Typed c.schema) :
    Watches c.schema (Watched.spawnFieldSets c o sets) (spawnFieldSets c o sets) s fun _ => True := by
  induction sets generalizing s with
  | nil => exact Watches.pure h trivial
  | cons e rest ih =>
    obtain ⟨set, id⟩ := e
    unfold Watched.spawnFieldSets spawnFieldSets
    dsimp only
    split
    · refine Watches.step (P := Job.Typed c.schema) (Leads.pure ⟨h, (ho : Job.Typed c.schema (.select _))⟩) ?_
      intro job s' h' hjob
      exact Watches.step (typed_spawn h' _ hjob) fun _ s'' h'' _ => ih h''
    · refine Watches.bind (watches_selectFields hfields (o := { o with fields := set.fields, record := id }) ho h) ?_
      intro job s' h' hjob
      exact Watches.step (typed_spawn h' _ hjob) fun _ s'' h'' _ => ih h''

end Fields

theorem typed_absorb (type : TypeRef) (site : Site) (raw : Error) (h : s.Typed schema) :
    LeadsTyped schema (absorb type site raw) s fun _ => True := by
  unfold absorb
  dsimp only
  split
  · exact Leads.pure ⟨h, trivial⟩
  · refine Leads.andThen (typed_publishUnit h fun p => .modifyRecord p _ _) fun _ s' h' => ?_
    exact Leads.andThen (typed_publishAndClose h'.1 fun p => .filter p _ _) fun _ s'' h'' => Leads.pure h''

/-! ### Deferred fragments -/

theorem typed_addFragments (path : Path) (record : RecordId) (usages : List DeferUsage) (deferMap : DeferMap)
    (h : s.Typed schema) : LeadsTyped schema (addFragments path record usages deferMap) s fun _ => True := by
  unfold addFragments
  induction usages generalizing s deferMap with
  | nil => exact Leads.pure ⟨h, trivial⟩
  | cons usage rest ih =>
    rw [List.foldlM_cons]
    refine Leads.andThen (Q := fun _ s' => s'.Typed schema) ?_ fun map s' h' => ih map h'
    exact Leads.andThen (typed_publish h fun p => .addFragment p _ _ _) fun id s' h' => Leads.pure h'.1

theorem typed_addFieldSets (path : Path) (deferMap : DeferMap) (sets : List NewFieldSet) (h : s.Typed schema) :
    LeadsTyped schema (addFieldSets path deferMap sets) s fun _ => True := by
  unfold addFieldSets
  induction sets generalizing s with
  | nil => exact Leads.pure ⟨h, trivial⟩
  | cons set rest ih =>
    rw [List.mapM_cons]
    refine Leads.andThen (Q := fun _ s' => s'.Typed schema) ?_ fun e s' h' =>
      Leads.andThen (ih h') fun _ s'' h'' => Leads.pure ⟨h''.1, trivial⟩
    exact Leads.andThen (typed_publish h fun p => .addFieldSet p _ _) fun id s' h' => Leads.pure h'.1

/-! ### Objects -/

section Objects

variable (hfields : c.schema.OutputFields)
include hfields

/-- What is left to do once fields are collected for an object type. -/
theorem watches_goOn {o : ObjectFields} (ho : c.schema.IsObject o.typeName) (sets : List (NewFieldSet × RecordId))
    {begin' begin : ExecM Job} (hbegin : Watches c.schema begin' begin s fun job => job.Typed c.schema) :
    Watches c.schema
      (do
        let data ← begin'
        Watched.spawnFieldSets c o sets
        return Progress.go data)
      (do
        let data ← begin
        spawnFieldSets c o sets
        return Progress.go data) s fun progress => progress.Typed c.schema :=
  Watches.bind hbegin fun _ _ h' hdata =>
    Watches.bind (watches_spawnFieldSets hfields ho sets h') fun _ _ h'' _ => Watches.pure h'' hdata

theorem watches_completeObject {typeName : String} (htype : c.schema.IsObject typeName) (site : Site) (value : Json)
    (h : s.Typed c.schema) :
    Watches c.schema (Watched.completeObject c typeName site value) (completeObject c typeName site value) s fun progress =>
      progress.Typed c.schema := by
  unfold Watched.completeObject completeObject
  refine Watches.watch (Schema.allows_completeObject htype) (Watches.ite (fun _ => Watches.pure h trivial) fun _ => ?_)
  refine Watches.get_bind ?_
  dsimp only
  refine Watches.set_bind ?_
  have h₁ : Stage.Typed c.schema { s with memory := { s.memory with
      collector := (s.memory.collector.collectSubfields c.collection typeName site.group).2 } } := h
  cases (s.memory.collector.collectSubfields c.collection typeName site.group).1 with
  | error e => exact Watches.pure h₁ trivial
  | ok collected =>
    refine Watches.step (typed_addFragments _ _ _ _ h₁) fun deferMap s₂ h₂ _ => ?_
    refine Watches.step (typed_addFieldSets _ _ _ h₂) fun sets s₃ h₃ _ => ?_
    exact watches_goOn hfields (o := ⟨typeName, _, _, _, _, _⟩) htype sets (watches_selectFields hfields htype h₃)

end Objects

/-! ### Leaves and lists -/

theorem watches_singleValue {value : FieldValue} (hvalue : value.isLater = false) (typeName : String)
    (h : s.Typed c.schema) :
    Watches c.schema (Watched.singleValue c value typeName) (singleValue value typeName) s fun _ => True :=
  Watches.watch (by simp [Schema.allows, hvalue]) (Watches.same (Quiet.typed (quiet_singleValue value typeName) h))

theorem watches_completeLeaf {value : FieldValue} (hvalue : value.isLater = false) (typeName : String)
    (h : s.Typed c.schema) :
    Watches c.schema (Watched.completeLeaf c typeName value) (completeLeaf c typeName value) s fun _ => True := by
  unfold Watched.completeLeaf completeLeaf
  refine Watches.bind (watches_singleValue hvalue typeName h) fun outcome s' h' _ => ?_
  cases outcome with
  | error e => exact Watches.pure h' trivial
  | ok v =>
    dsimp only
    cases c.schema.serializeLeaf typeName v with
    | error e => exact Watches.pure h' trivial
    | ok serialized => exact Watches.ite (fun _ => Watches.pure h' trivial) fun _ => Watches.pure h' trivial

theorem typed_spawnItems {itemType : TypeRef} (hitem : itemType.IsOutput schema) (site : Site) (usage : StreamUsage)
    (stream : StreamId) (parent : RecordId) (index : Nat) (items : List FieldValue) (h : s.Typed schema) :
    LeadsTyped schema (spawnItems itemType site usage stream parent index items) s fun _ => True := by
  induction items generalizing s parent index with
  | nil => exact Leads.pure ⟨h, trivial⟩
  | cons item rest ih =>
    unfold spawnItems
    refine Leads.andThen (typed_publish h fun p => .addItems p _ _ _) fun id s₁ h₁ => ?_
    exact Leads.andThen (typed_spawn h₁.1 (.item _ _ _) hitem) fun _ s₂ h₂ => ih _ _ h₂.1

theorem typed_itemJobs {itemType : TypeRef} (hitem : itemType.IsOutput schema) (site : Site) (index : Nat)
    (items : List FieldValue) : ∀ job ∈ itemJobs itemType site index items, job.Typed schema := by
  induction items generalizing index with
  | nil => exact fun _ hjob => absurd hjob List.not_mem_nil
  | cons item rest ih =>
    intro job hjob
    rcases List.mem_cons.1 hjob with rfl | hjob
    · exact hitem
    · exact ih _ job hjob

theorem typed_completeItems {itemType : TypeRef} (hitem : itemType.IsOutput c.schema) (site : Site)
    (items : List FieldValue) (h : s.Typed c.schema) :
    LeadsTyped c.schema (completeItems c itemType site items) s fun progress => progress.Typed c.schema := by
  unfold completeItems
  refine Leads.andThen (Quiet.typed (quiet_streamUsage c _ _) h) fun usage s₁ ⟨h₁, _⟩ => ?_
  have hgathered : ∀ count, Progress.Typed c.schema
      (.go (.gather .list false ((itemJobs itemType site 0 (items.take count)).map .running))) :=
    fun _ => Job.typed_gather .list false (typed_itemJobs hitem site 0 _)
  cases usage with
  | error e => exact Leads.andThen (Quiet.typed (quiet_noteClosed _) h₁) fun _ s₂ h₂ => Leads.pure ⟨h₂.1, trivial⟩
  | ok usage =>
    dsimp only
    split
    · refine Leads.andThen (typed_publish h₁ fun p => .addStream p _ _ _) fun stream s₂ h₂ => ?_
      refine Leads.andThen (typed_spawnItems hitem _ _ _ _ _ _ h₂.1) fun last s₃ h₃ => ?_
      exact Leads.andThen (typed_publishUnit h₃.1 fun p => .modifyRecord p _ _) fun _ s₄ h₄ =>
        Leads.pure ⟨h₄.1, hgathered _⟩
    · exact Leads.bind (Leads.pure (Leads.pure ⟨h₁, hgathered _⟩))

theorem typed_completeStream {itemType : TypeRef} (hitem : itemType.IsOutput c.schema) (site : Site)
    (source : ItemStream) (h : s.Typed c.schema) :
    LeadsTyped c.schema (completeStream c itemType site source) s fun progress => progress.Typed c.schema := by
  unfold completeStream
  refine Leads.andThen (Quiet.typed (quiet_streamUsage c _ _) h) fun usage s₁ ⟨h₁, _⟩ => ?_
  cases usage with
  | error e => exact Leads.andThen (Quiet.typed (quiet_noteClosed _) h₁) fun _ s₂ h₂ => Leads.pure ⟨h₂.1, trivial⟩
  | ok usage => exact Leads.pure ⟨h₁, hitem, trivial⟩

theorem typed_completeList {itemType : TypeRef} (hitem : itemType.IsOutput c.schema) (site : Site) (value : FieldValue)
    (h : s.Typed c.schema) :
    LeadsTyped c.schema (completeList c itemType site value) s fun progress => progress.Typed c.schema := by
  unfold completeList
  split
  · exact typed_completeStream hitem site _ h
  · exact typed_completeItems hitem site _ h
  · exact typed_completeItems hitem site _ h
  · exact Leads.pure ⟨h, trivial⟩

/-! ### Values -/

private theorem watches_single {typeName : String} {value : FieldValue} (hvalue : value.isLater = false)
    {k' k : Json → ExecM Progress}
    (hk : ∀ v s', s'.Typed c.schema → Watches c.schema (k' v) (k v) s' fun progress => progress.Typed c.schema)
    (h : s.Typed c.schema) :
    Watches c.schema
      (do match ← Watched.singleValue c value typeName with
        | .error e => return .fail e
        | .ok v => k' v)
      (do match ← singleValue value typeName with
        | .error e => return .fail e
        | .ok v => k v) s fun progress => progress.Typed c.schema := by
  refine Watches.bind (watches_singleValue hvalue typeName h) fun outcome s' h' _ => ?_
  cases outcome with
  | error e => exact Watches.pure h' trivial
  | ok v => exact hk v s' h'

section Values

variable (hfields : c.schema.OutputFields)
include hfields

private theorem watches_runtimeObject {typeName : String} (site : Site) (v : Json) (s' : ExecStage)
    (h' : s'.Typed c.schema) : Watches c.schema
      (match runtimeType c typeName v site with
        | .error e => return .fail e
        | .ok runtimeType => Watched.completeObject c runtimeType site v)
      (match runtimeType c typeName v site with
        | .error e => return .fail e
        | .ok runtimeType => completeObject c runtimeType site v) s' fun progress => progress.Typed c.schema := by
  cases hname : runtimeType c typeName v site with
  | error e => exact Watches.pure h' trivial
  | ok name => exact watches_completeObject hfields ((ExecutionContext.hasRuntimeType_of_runtimeType hname).1) site v h'

/-- Values of named output types are completed without calls that are not allowed. -/
theorem watches_completeNamed {typeName : String} (htype : (TypeRef.named typeName).IsOutput c.schema) (site : Site)
    {value : FieldValue} (hvalue : value.isLater = false) (h : s.Typed c.schema) :
    Watches c.schema (Watched.completeNamed c typeName site value) (completeNamed c typeName site value) s fun progress =>
      progress.Typed c.schema := by
  have hleaf : Watches c.schema (do return Progress.done (← Watched.completeLeaf c typeName value))
      (do return Progress.done (← completeLeaf c typeName value)) s fun progress => progress.Typed c.schema :=
    Watches.bind (watches_completeLeaf hvalue typeName h) fun _ _ h' _ => Watches.pure h' trivial
  unfold TypeRef.IsOutput at htype
  rw [TypeRef.innermost] at htype
  unfold Watched.completeNamed completeNamed
  cases hkind : c.schema.typeKind? typeName with
  | none =>
    rw [hkind] at htype
    exact absurd htype (by simp)
  | some kind =>
    rw [hkind] at htype
    cases kind with
    | scalar => exact hleaf
    | enum => exact hleaf
    | interface => exact watches_single hvalue (watches_runtimeObject hfields site) h
    | union => exact watches_single hvalue (watches_runtimeObject hfields site) h
    | object => exact watches_single hvalue (fun v _ h' => watches_completeObject hfields hkind site v h') h
    | inputObject => exact absurd htype (by simp [TypeKind.isOutput])

/-- Values of output types are completed without calls that are not allowed. -/
theorem watches_completeValue {type : TypeRef} (htype : type.IsOutput c.schema) (site : Site) (value : FieldValue)
    (h : s.Typed c.schema) :
    Watches c.schema (Watched.completeValue c type site value) (completeValue c type site value) s fun progress =>
      progress.Typed c.schema := by
  have hnull : Watches c.schema (return .done (.ok .null)) (return .done (.ok .null)) s fun progress : Progress =>
      progress.Typed c.schema := Watches.pure h trivial
  have hready : value.isLater = false →
      Watches c.schema (Watched.completeValue c type site value) (completeValue c type site value) s fun progress =>
        progress.Typed c.schema := by
    intro hvalue
    cases type with
    | nonNull inner =>
      cases value with
      | later => exact absurd hvalue (by simp [FieldValue.isLater])
      | _ => exact Watches.pure h htype
    | list itemType =>
      have hitem : itemType.IsOutput c.schema := htype
      have hlist := Watches.ite (b := value.isNull = true) (fun _ => hnull)
        fun _ => Watches.same (typed_completeList hitem site value h)
      cases value with
      | later => exact absurd hvalue (by simp [FieldValue.isLater])
      | _ => exact hlist
    | named typeName =>
      have hnamed := Watches.ite (b := value.isNull = true) (fun _ => hnull)
        fun _ => watches_completeNamed hfields htype site hvalue h
      cases value with
      | later => exact absurd hvalue (by simp [FieldValue.isLater])
      | _ => exact hnamed
  cases value with
  | later notice ticks outcome =>
    unfold Watched.completeValue completeValue
    cases notice with
    | none => exact Watches.pure h htype
    | some n => exact Watches.modify_bind (Watches.pure (h.beside (noteCall_beside s n)) htype)
  | _ => exact hready rfl

end Values

end GraphQL
