import GraphQL.Delivery.Publisher

/-!
# What does not concern the inbox

Reports to the publisher, and what it makes of them, have nothing to do with the work in its inbox: with another inbox, the
same happens, and the inbox stays as it is.
-/

namespace GraphQL

namespace Publisher

variable {ω : Type} (p : Publisher ω) (inbox : List ω)

/-- The publisher with another inbox. -/
def withInbox : Publisher ω := { p with inbox := inbox }

@[simp]
theorem inbox_withInbox : (p.withInbox inbox).inbox = inbox := rfl

@[simp]
theorem record?_withInbox (id : RecordId) : (p.withInbox inbox).record? id = p.record? id := rfl

theorem foldl_withInbox {α : Type} {f : Publisher ω → α → Publisher ω}
    (hf : ∀ p x, f (p.withInbox inbox) x = (f p x).withInbox inbox) (xs : List α) :
    xs.foldl f (p.withInbox inbox) = (xs.foldl f p).withInbox inbox := by
  induction xs generalizing p with
  | nil => rfl
  | cons x xs ih => rw [List.foldl_cons, List.foldl_cons, hf, ih]

theorem foldl_withInbox_pair {α β : Type} {f : Publisher ω × β → α → Publisher ω × β}
    (hf : ∀ p b x, f (p.withInbox inbox, b) x = ((f (p, b) x).1.withInbox inbox, (f (p, b) x).2)) (b : β) (xs : List α) :
    xs.foldl f (p.withInbox inbox, b) = ((xs.foldl f (p, b)).1.withInbox inbox, (xs.foldl f (p, b)).2) := by
  induction xs generalizing p b with
  | nil => rfl
  | cons x xs ih => rw [List.foldl_cons, List.foldl_cons, hf, ih]

/-! ### Records -/

theorem modifyRecord_withInbox (id : RecordId) (f : Record → Record) :
    (p.withInbox inbox).modifyRecord id f = (p.modifyRecord id f).withInbox inbox := rfl

theorem addChild_withInbox (parent child : RecordId) :
    (p.withInbox inbox).addChild parent child = (p.addChild parent child).withInbox inbox :=
  foldl_withInbox p inbox (fun _ _ => rfl) _

theorem addFragment_withInbox (path : Path) (label : Option String) (parent : RecordId) :
    (p.withInbox inbox).addFragment path label parent =
      ((p.addFragment path label parent).1.withInbox inbox, (p.addFragment path label parent).2) :=
  congrArg (·, _) (addChild_withInbox (p.push _).1 inbox parent _)

theorem addFieldSet_withInbox (path : Path) (fragments : List RecordId) :
    (p.withInbox inbox).addFieldSet path fragments =
      ((p.addFieldSet path fragments).1.withInbox inbox, (p.addFieldSet path fragments).2) :=
  congrArg (·, _) (foldl_withInbox (p.push _).1 inbox (fun _ _ => rfl) fragments)

theorem addStream_withInbox (path : Path) (label : Option String) (hook : Option HookId) :
    (p.withInbox inbox).addStream path label hook =
      ((p.addStream path label hook).1.withInbox inbox, (p.addStream path label hook).2) := rfl

theorem addItems_withInbox (stream : StreamId) (path : Path) (parent : RecordId) :
    (p.withInbox inbox).addItems stream path parent =
      ((p.addItems stream path parent).1.withInbox inbox, (p.addItems stream path parent).2) :=
  congrArg (·, _) (addChild_withInbox (p.push _).1 inbox parent _)

/-! ### Completion -/

theorem release_withInbox (id : RecordId) : (p.withInbox inbox).release id = (p.release id).withInbox inbox := by
  unfold release
  show (if id ∈ p.pending then _ else _) = _
  split <;> rfl

theorem completeFieldSet_withInbox (id : RecordId) (data : Json) :
    (p.withInbox inbox).completeFieldSet id data = (p.completeFieldSet id data).withInbox inbox := by
  unfold completeFieldSet
  dsimp only
  rw [modifyRecord_withInbox, show (p.withInbox inbox).fragmentsOf id = p.fragmentsOf id from rfl]
  refine foldl_withInbox _ inbox (fun p fragment => ?_) _
  have hfinish : (p.withInbox inbox).finishFieldSet id fragment = (p.finishFieldSet id fragment).withInbox inbox := rfl
  rw [hfinish, record?_withInbox]
  cases (p.finishFieldSet id fragment).record? fragment with
  | none => rfl
  | some record =>
    cases record with
    | fragment r =>
      dsimp only
      rw [release_withInbox, apply_ite (withInbox · inbox)]
    | _ => rfl

theorem failFieldSet_withInbox (id : RecordId) (error : Error) :
    (p.withInbox inbox).failFieldSet id error = (p.failFieldSet id error).withInbox inbox := by
  unfold failFieldSet
  exact foldl_withInbox p inbox (fun p fragment => release_withInbox ((p.finishFieldSet id fragment).modifyFragment fragment _)
    inbox fragment) _

theorem completeItems_withInbox (id : RecordId) (items : List Json) :
    (p.withInbox inbox).completeItems id items = (p.completeItems id items).withInbox inbox :=
  release_withInbox (p.modifyItems id _) inbox id

theorem retireItems_withInbox (id : RecordId) :
    (p.withInbox inbox).retireItems id = (p.retireItems id).withInbox inbox :=
  release_withInbox (p.modifyItems id _) inbox id

theorem failItems_withInbox (id : RecordId) (error : Error) :
    (p.withInbox inbox).failItems id error = ((p.failItems id error).1.withInbox inbox, (p.failItems id error).2) := by
  unfold failItems
  rw [record?_withInbox]
  split
  · exact congrArg (·, _) (release_withInbox { p.modifyItems id _ with streams := _ } inbox id)
  · rfl

/-! ### Filtering -/

theorem filter_withInbox (nullPath : Path) (erroring : RecordId) :
    (p.withInbox inbox).filter nullPath erroring =
      ((p.filter nullPath erroring).1.withInbox inbox, (p.filter nullPath erroring).2) := by
  have hbelow : ∀ fuel met stack, (p.withInbox inbox).collectBelow fuel met stack = p.collectBelow fuel met stack := by
    intro fuel
    induction fuel with
    | zero => exact fun _ _ => rfl
    | succ fuel ih =>
      intro met stack
      cases stack with
      | nil => rfl
      | cons id stack =>
        unfold collectBelow
        rw [ih, ih, record?_withInbox]
  have hunder : ((p.withInbox inbox).descendants ((p.withInbox inbox).childrenOf erroring)).filter
        ((p.withInbox inbox).isUnder · nullPath) =
      (p.descendants (p.childrenOf erroring)).filter (p.isUnder · nullPath) :=
    congrArg _ (hbelow _ _ _)
  unfold filter
  rw [hunder]
  exact congrArg (·, _) (foldl_withInbox p inbox (fun _ _ => rfl) _)

/-! ### Results -/

theorem publish_withInbox (id : RecordId) : (p.withInbox inbox).publish id = (p.publish id).withInbox inbox := by
  unfold publish
  dsimp only
  rw [record?_withInbox]
  cases p.record? id with
  | none => rfl
  | some record =>
    cases record with
    | items r =>
      dsimp only
      cases r.completed <;> rfl
    | fragment r =>
      dsimp only
      cases r.unfinished.isEmpty || !r.errors.isEmpty <;> rfl
    | _ => rfl

theorem publishChildren_withInbox (id : RecordId) :
    (p.withInbox inbox).publishChildren id = (p.publishChildren id).withInbox inbox :=
  foldl_withInbox p inbox (fun p id => publish_withInbox p inbox id) _

theorem sendFieldSet_withInbox (label : Option String) (entries : List IncrementalEntry) (id : RecordId) :
    sendFieldSet label (p.withInbox inbox, entries) id =
      ((sendFieldSet label (p, entries) id).1.withInbox inbox, (sendFieldSet label (p, entries) id).2) := by
  unfold sendFieldSet
  dsimp only
  rw [record?_withInbox]
  split
  · split <;> rfl
  · rfl

theorem deliver_withInbox (id : RecordId) :
    (p.withInbox inbox).deliver id = ((p.deliver id).1.withInbox inbox, (p.deliver id).2) := by
  unfold deliver
  rw [record?_withInbox]
  split
  · dsimp only
    split <;> rfl
  · dsimp only
    split
    · rfl
    · rw [foldl_withInbox_pair p inbox fun p entries id => sendFieldSet_withInbox p inbox _ entries id]
  · rfl

/-- The result of what was delivered, if it has one. -/
private def resultOf (d : Publisher ω × List IncrementalEntry × List CompletedEntry) : Publisher ω × Option SubsequentResult :=
  if d.2.1.isEmpty && d.2.2.isEmpty && !d.1.pending.isEmpty then (d.1, none)
  else (d.1, some ⟨d.2.1, d.2.2, !d.1.pending.isEmpty⟩)

private theorem resultOf_withInbox (entries : List IncrementalEntry × List CompletedEntry) :
    resultOf (p.withInbox inbox, entries) =
      ((resultOf (p, entries)).1.withInbox inbox, (resultOf (p, entries)).2) := by
  unfold resultOf
  show (if entries.1.isEmpty && entries.2.isEmpty && !p.pending.isEmpty then _ else _) = _
  split <;> rfl

theorem processReleased_withInbox :
    (p.withInbox inbox).processReleased = (p.processReleased.1.withInbox inbox, p.processReleased.2) := by
  have hnext : ∀ (p : Publisher ω) entries id, deliverNext (p.withInbox inbox, entries) id =
      ((deliverNext (p, entries) id).1.withInbox inbox, (deliverNext (p, entries) id).2) := by
    intro p entries id
    unfold deliverNext
    dsimp only
    rw [publishChildren_withInbox, deliver_withInbox]
  have hdelivered := foldl_withInbox_pair { p with released := [], pending := p.pending.filter (· ∉ p.released) } inbox hnext
    ([], []) p.released
  exact (congrArg resultOf hdelivered).trans (resultOf_withInbox _ inbox _)

theorem nextResult?_withInbox :
    (p.withInbox inbox).nextResult? = (p.nextResult?.1.withInbox inbox, p.nextResult?.2) := by
  unfold nextResult?
  rw [processReleased_withInbox]
  by_cases h : p.released.isEmpty
  · rw [if_pos h, if_pos (show (p.withInbox inbox).released.isEmpty from h)]
  · rw [if_neg h, if_neg (show ¬(p.withInbox inbox).released.isEmpty from h)]

theorem takeErrors_withInbox :
    (p.withInbox inbox).takeErrors = (p.takeErrors.1.withInbox inbox, p.takeErrors.2) := rfl

end Publisher

end GraphQL
