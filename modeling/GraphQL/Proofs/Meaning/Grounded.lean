import GraphQL.Proofs.Meaning.Agreement

/-!
# Grounded groups

Whatever is asked for is asked for by groups that are delivered in targets in which their fields were met
(`ExecutionContext.ValueAt.grounded`), and such a group is like itself.  So numbers do not matter: what is asked for alike
comes to the same value (`Settles.of_alike`), and to one only (`Settles.unique`).
-/

namespace GraphQL

variable {c : ExecutionContext}

/-! ### What is asked for -/

theorem CollectedFields.mem_allFields {collected : CollectedFields} {fields : GroupedFieldSet} {field : String × FieldGroup}
    (h : fields ∈ collected.sets) (hfield : field ∈ fields) : field ∈ collected.allFields := by
  rcases List.mem_cons.1 h with rfl | h
  · exact List.mem_append_left _ hfield
  · obtain ⟨set, hset, rfl⟩ := List.mem_map.1 h
    exact List.mem_append_right _ (List.mem_flatMap.2 ⟨set, hset, hfield⟩)

namespace ExecutionContext

theorem group_of_mem_children {o : Selected} {key : String} {child : Child} (h : (key, child) ∈ c.children o) :
    (key, child.place.group) ∈ o.fields := by
  obtain ⟨⟨key', group⟩, hfield, heq⟩ := List.mem_filterMap.1 h
  obtain ⟨child', hchild, hpair⟩ := Option.map_eq_some_iff.1 heq
  cases hpair
  obtain ⟨definition, -, rfl⟩ := Option.map_eq_some_iff.1 hchild
  exact hfield

/-- The items of a streamed list are asked for as part of the initial result. -/
theorem Streams.grounded {group : FieldGroup} {path : Path} {usage : StreamUsage}
    (h : c.Streams group path (.ok (some usage))) : usage.group.Grounded := by
  unfold Streams at h
  split at h
  · exact absurd h (by simp)
  · obtain ⟨nextGroup, h⟩ := h
    have hinitial : usage.group.targets = .initial ∧ ∀ t ∈ usage.group.reached, t = .initial := by
      unfold Execution.newStreamUsage at h
      split at h
      · exact absurd h (by simp)
      · split at h
        · exact absurd h (by simp)
        · exact absurd h (by simp)
        · dsimp only at h
          split at h
          · exact absurd h (by simp)
          · split at h
            · exact absurd h (by simp)
            · cases h
              refine ⟨rfl, fun t ht => ?_⟩
              obtain ⟨d, hd, rfl⟩ := List.mem_map.1 ht
              rcases List.mem_cons.1 hd with rfl | hd
              · rfl
              · obtain ⟨d', -, rfl⟩ := List.mem_map.1 hd
                rfl
    obtain ⟨htargets, hreached⟩ := hinitial
    have hfirst : usage.group.first.target ∈ usage.group.reached := List.mem_cons_self
    refine ⟨fun t ht => ?_, fun t ht a ha => ?_⟩
    · rw [htargets] at ht
      rw [List.mem_singleton.1 ht, ← hreached _ hfirst]
      exact hfirst
    · rw [hreached t ht] at ha
      exact absurd ha List.not_mem_nil

mutual

theorem FieldsAt.grounded : ∀ {o : Selected}, c.FieldsAt o → ∀ field ∈ o.fields, field.2.Grounded
  | _, .root hcollected hfields, _, hfield =>
    Collector.grounded_collectFields Nat.one_pos hcollected _ (CollectedFields.mem_allFields hfields hfield)
  | _, .object hv _ ⟨_, hprecedes, hcollected⟩ hfields, _, hfield =>
    Collector.grounded_collectBelow (ValueAt.grounded hv) hprecedes hcollected _
      (CollectedFields.mem_allFields hfields hfield)

theorem ValueAt.grounded : ∀ {type : TypeRef} {place : Place} {v : FieldValue}, c.ValueAt type place v →
    place.group.Grounded
  | _, _, _, .field ho h => FieldsAt.grounded ho _ (group_of_mem_children h)
  | _, _, _, .awaited hv _ => ValueAt.grounded hv
  | _, _, _, .required hv _ => ValueAt.grounded hv
  | _, _, _, .item hv _ _ =>
    have hgroup := ValueAt.grounded hv
    hgroup
  | _, _, _, .streamed _ _ husage _ => husage.grounded

end

end ExecutionContext

/-- The groups that ask are grounded, and objects have as many keys as children. -/
def Asked.IsGrounded : Asked → Prop
  | .value _ place _ => place.group.Grounded
  | .child ch => ch.place.group.Grounded
  | .gather shape chs => (∀ ch ∈ chs, ch.place.group.Grounded) ∧ ∀ keys, shape = .object keys → keys.length = chs.length

/-- What is asked for by groups that are grounded is like itself. -/
theorem Asked.IsGrounded.alike {a : Asked} (h : a.IsGrounded) : a.Alike a := by
  cases a with
  | value => exact .value ⟨FieldGroup.Grounded.alike h, rfl, rfl⟩
  | child ch => exact .child ⟨rfl, ⟨FieldGroup.Grounded.alike h, rfl, rfl⟩, rfl⟩
  | gather shape chs => exact .gather (List.forall₂_same.2 fun ch hch => ⟨rfl, ⟨(h.1 ch hch).alike, rfl, rfl⟩, rfl⟩)

theorem ExecutionContext.grounded_asked {o : Selected} (h : ∀ field ∈ o.fields, field.2.Grounded) :
    (c.asked o).IsGrounded := by
  refine ⟨fun ch hch => ?_, fun keys hkeys => ?_⟩
  · obtain ⟨⟨key, _⟩, hchild, rfl⟩ := List.mem_map.1 hch
    exact h _ (group_of_mem_children hchild)
  · cases hkeys
    rw [List.length_map, List.length_map]

theorem grounded_itemChildren {place : Place} (h : place.group.Grounded) (type : TypeRef) (items : List FieldValue) :
    (Asked.gather .list (itemChildren type place 0 items)).IsGrounded := by
  refine ⟨fun ch hch => ?_, nofun⟩
  rw [itemChildren_eq] at hch
  obtain ⟨i, item, -, rfl⟩ := List.mem_mapIdx.1 hch
  exact h

theorem grounded_collects {typeName : String} {place : Place} {collected : CollectedFields} (h : place.group.Grounded)
    (hcollected : c.Collects typeName place.group (.ok collected)) (parent : Json) :
    (c.asked ⟨typeName, parent, place.path, collected.fields⟩).IsGrounded := by
  obtain ⟨collector, hprecedes, hcollected⟩ := hcollected
  exact ExecutionContext.grounded_asked fun field hfield =>
    Collector.grounded_collectBelow h hprecedes hcollected field (List.mem_append_left _ hfield)

/-! ### Other numbers -/

namespace ExecutionContext

theorem exists_streams (c : ExecutionContext) (group : FieldGroup) (path : Path) : ∃ usage, c.Streams group path usage := by
  unfold Streams
  split
  · exact ⟨_, rfl⟩
  · exact ⟨_, 0, rfl⟩

theorem exists_collects (c : ExecutionContext) (typeName : String) (group : FieldGroup) :
    ∃ result, c.Collects typeName group result := by
  obtain ⟨n, hn⟩ : ∃ n, ∀ t ∈ group.reached, t.id < n := by
    induction group.reached with
    | nil => exact ⟨0, by simp⟩
    | cons t rest ih =>
      obtain ⟨n, hn⟩ := ih
      refine ⟨max n (t.id + 1), fun u hu => ?_⟩
      rcases List.mem_cons.1 hu with rfl | hu
      · omega
      · have := hn u hu
        omega
  refine ⟨_, { nextUsage := max n 1 }, ⟨Nat.le_max_right n 1, fun usage husage => ?_⟩, rfl⟩
  exact Nat.lt_of_lt_of_le (hn _ husage) (Nat.le_max_left n 1)

end ExecutionContext

/-- What is asked for alike comes to an outcome, too. -/
theorem Settles.exists_of_alike {a a' : Asked} {out : Except Error Json} (h : Settles c a out) (halike : a.Alike a') :
    ∃ out', Settles c a' out' := by
  induction h generalizing a' with
  | outcome h =>
    cases halike with
    | value hplace => exact ⟨_, .outcome (hplace.demand _ _ ▸ h)⟩
  | awaited h _ ih =>
    cases halike with
    | value hplace =>
      obtain ⟨out', h'⟩ := ih (.value hplace)
      exact ⟨out', .awaited (hplace.demand _ _ ▸ h) h'⟩
  | required h _ ih =>
    cases halike with
    | value hplace =>
      obtain ⟨out', h'⟩ := ih (.value hplace)
      exact ⟨_, .required (hplace.demand _ _ ▸ h) h'⟩
  | unstreamed h husage =>
    cases halike with
    | @value _ _ place' _ hplace =>
      obtain ⟨usage', husage'⟩ := c.exists_streams place'.group place'.path
      have hsame := hplace.streams husage husage'
      cases usage' with
      | error e => exact ⟨_, .unstreamed (hplace.demand _ _ ▸ h) husage'⟩
      | ok usage => exact absurd hsame (by simp [Except.map])
  | @unlisted _ _ _ _ _ usage₀ _ h husage hfirst =>
    cases halike with
    | @value _ _ place' _ hplace =>
      obtain ⟨usage', husage'⟩ := c.exists_streams place'.group place'.path
      have hsame := hplace.streams husage husage'
      cases usage' with
      | error e => exact absurd hsame (by simp [Except.map])
      | ok usage =>
        have hcount : usage₀.map StreamUsage.initialCount = usage.map StreamUsage.initialCount := Except.ok.inj hsame
        rw [hcount] at hfirst
        exact ⟨_, .unlisted (hplace.demand _ _ ▸ h) husage' hfirst⟩
  | @list _ _ _ _ _ usage₀ _ _ h husage hfirst _ ih =>
    cases halike with
    | @value _ _ place' _ hplace =>
      obtain ⟨usage', husage'⟩ := c.exists_streams place'.group place'.path
      have hsame := hplace.streams husage husage'
      cases usage' with
      | error e => exact absurd hsame (by simp [Except.map])
      | ok usage =>
        have hcount : usage₀.map StreamUsage.initialCount = usage.map StreamUsage.initialCount := Except.ok.inj hsame
        rw [hcount] at hfirst
        obtain ⟨out', h'⟩ := ih (.gather (itemChildren_alike hplace _ 0 _))
        exact ⟨out', .list (hplace.demand _ _ ▸ h) husage' hfirst h'⟩
  | @uncollected _ _ _ typeName _ _ h hcollected =>
    cases halike with
    | @value _ _ place' _ hplace =>
      obtain ⟨result, hcollected'⟩ := c.exists_collects typeName place'.group
      have hcollects := hplace.collects hcollected hcollected'
      cases result with
      | error e => exact ⟨_, .uncollected (hplace.demand _ _ ▸ h) hcollected'⟩
      | ok collected => exact hcollects.elim
  | @object _ place _ typeName parent found _ h hcollected _ ih =>
    cases halike with
    | @value _ _ place' _ hplace =>
      obtain ⟨result, hcollected'⟩ := c.exists_collects typeName place'.group
      have hcollects := hplace.collects hcollected hcollected'
      cases result with
      | error e => exact hcollects.elim
      | ok collected =>
        have hfields : (c.asked ⟨typeName, parent, place.path, found.fields⟩).Alike
            (c.asked ⟨typeName, parent, place'.path, collected.fields⟩) :=
          ExecutionContext.asked_alike rfl rfl hplace.path hcollects
        obtain ⟨out', h'⟩ := ih hfields
        exact ⟨out', .object (hplace.demand _ _ ▸ h) hcollected' h'⟩
  | child _ ih =>
    cases halike with
    | @child _ child' hchild =>
      obtain ⟨type', place', result'⟩ := child'
      obtain ⟨rfl, hplace, rfl⟩ := hchild
      obtain ⟨out', h'⟩ := ih (.value hplace)
      exact ⟨_, .child h'⟩
  | unresolved =>
    cases halike with
    | @child _ child' hchild =>
      obtain ⟨type', place', result'⟩ := child'
      obtain ⟨rfl, hplace, rfl⟩ := hchild
      exact ⟨_, .unresolved⟩
  | @gathered shape children values hlength h ih =>
    cases halike with
    | @gather _ _ children' hchildren =>
      have hlengths := hchildren.length_eq
      suffices hgathered : Settles c (.gather shape children') (.ok (shape.assemble values)) from ⟨_, hgathered⟩
      refine .gathered (by omega) fun i child' v hchild' hv => ?_
      obtain ⟨hi, rfl⟩ := List.getElem?_eq_some_iff.1 hchild'
      have hlike := hchildren.get (by omega) hi
      have hchild : children[i]? = some children[i] := List.getElem?_eq_getElem (by omega)
      obtain ⟨out', h'⟩ := ih i _ v hchild hv (.child hlike)
      have hagrees := (h i _ v hchild hv).agrees (.child hlike) h'
      cases out' with
      | error e => exact absurd hagrees (by simp [Except.toOption])
      | ok v' => exact Option.some.inj hagrees ▸ h'
  | @failed shape children child e hchild h ih =>
    cases halike with
    | @gather _ _ children' hchildren =>
      obtain ⟨i, hi, rfl⟩ := List.getElem_of_mem hchild
      have hi' : i < children'.length := hchildren.length_eq ▸ hi
      have hlike := hchildren.get hi hi'
      obtain ⟨out', h'⟩ := ih (.child hlike)
      have hagrees := h.agrees (.child hlike) h'
      cases out' with
      | error e' => exact ⟨_, .failed (List.getElem_mem hi') h'⟩
      | ok v => exact absurd hagrees (by simp [Except.toOption])

/-- What is asked for alike comes to the same value. -/
theorem Settles.of_alike {a a' : Asked} {v : Json} (h : Settles c a (.ok v)) (halike : a.Alike a') :
    Settles c a' (.ok v) := by
  obtain ⟨out, h'⟩ := h.exists_of_alike halike
  have hagrees := h.agrees halike h'
  cases out with
  | error e => exact absurd hagrees (by simp [Except.toOption])
  | ok w => exact Option.some.inj hagrees ▸ h'

/-- What is asked for by grounded groups comes to one value at most, and not to an error then. -/
theorem Settles.unique {a : Asked} {v : Json} {out : Except Error Json} (h : Settles c a (.ok v)) (hg : a.IsGrounded)
    (h' : Settles c a out) : out = .ok v := by
  have hagrees := h.agrees hg.alike h'
  cases out with
  | error e => exact absurd hagrees (by simp [Except.toOption])
  | ok w => rw [Option.some.inj hagrees]

end GraphQL
