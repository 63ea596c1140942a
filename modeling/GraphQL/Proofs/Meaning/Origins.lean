import GraphQL.Proofs.Meaning.Conforms
import GraphQL.Proofs.Meaning.Fates

/-!
# Where errors come from

An error is raised by a field or an item: by its resolver, by its value, or by the way in which its value is asked for
(`Asked.Raises`).  It is located there, and on its way to where it becomes null it is not located again, since it has a path
by then.  So whatever is noted was raised by a field or an item inside of what is asked for, and carries its path
(`Asked.Comes.traces`).
-/

namespace GraphQL

variable {c : ExecutionContext} {told : Error → Prop} {a : Asked}

/-! ### Locating -/

namespace Error

variable {e : Error} {group : FieldGroup} {path : Path}

theorem locate_of_isLocated (h : e.isLocated = true) : e.locate group path = e := if_pos h

theorem path_locate (h : e.path = none) : (e.locate group path).path = some path := by
  unfold locate
  rw [if_neg (by simp [isLocated, h])]

theorem isLocated_locate : (e.locate group path).isLocated = true := by
  unfold locate
  split
  · assumption
  · rfl

/-- An error is located once. -/
theorem locate_locate (group' : FieldGroup) (path' : Path) :
    (e.locate group path).locate group' path' = e.locate group path :=
  locate_of_isLocated isLocated_locate

end Error

/-! ### Raised errors -/

namespace Asked

/-- The error is raised by what is asked for, and not by a field or an item inside of it. -/
inductive Raises (c : ExecutionContext) : Asked → Error → Prop
  | outcome {type place v e} (h : c.demand type place v = .outcome (.error e)) : Raises c (.value type place v) e
  | awaited {type place v later e} (h : c.demand type place v = .value later)
      (hlater : Raises c (.value type place later) e) : Raises c (.value type place v) e
  | required {type place v inner e} (h : c.demand type place v = .required inner)
      (hinner : Raises c (.value inner place v) e) : Raises c (.value type place v) e
  | null {type place v inner} (h : c.demand type place v = .required inner)
      (hnull : Settles c (.value inner place v) (.ok .null)) :
      Raises c (.value type place v) (CompletionError.unexpectedNull place.info).toError
  | unstreamed {type place v itemType source e} (h : c.demand type place v = .items itemType source)
      (husage : c.Streams place.group place.path (.error e)) : Raises c (.value type place v) e
  | unlisted {type place v itemType source usage e} (h : c.demand type place v = .items itemType source)
      (husage : c.Streams place.group place.path (.ok usage))
      (hfirst : source.first? (usage.map StreamUsage.initialCount) = some (.error e)) :
      Raises c (.value type place v) e.toError
  | uncollected {type place v typeName parent e} (h : c.demand type place v = .object typeName parent)
      (hcollected : c.Collects typeName place.group (.error e)) : Raises c (.value type place v) e.toError
  | child {type place v e} (h : Raises c (.value type place v) e) : Raises c (.child ⟨type, place, .ok v⟩) e
  | unresolved {type place e} : Raises c (.child ⟨type, place, .error e⟩) e

/-- A field or an item is asked for there, or inside of what is asked for. -/
inductive Includes (c : ExecutionContext) : Asked → Child → Prop
  | self {ch} : Includes c (.child ch) ch
  | awaited {type place v later ch} (h : c.demand type place v = .value later)
      (hlater : Includes c (.value type place later) ch) : Includes c (.value type place v) ch
  | required {type place v inner ch} (h : c.demand type place v = .required inner)
      (hinner : Includes c (.value inner place v) ch) : Includes c (.value type place v) ch
  | list {type place v itemType source usage items ch} (h : c.demand type place v = .items itemType source)
      (husage : c.Streams place.group place.path (.ok usage))
      (hfirst : source.first? (usage.map StreamUsage.initialCount) = some (.ok items))
      (hitems : Includes c (.gather .list (itemChildren itemType place 0 items)) ch) : Includes c (.value type place v) ch
  | object {type place v typeName parent collected ch} (h : c.demand type place v = .object typeName parent)
      (hcollected : c.Collects typeName place.group (.ok collected))
      (hfields : Includes c (c.asked ⟨typeName, parent, place.path, collected.fields⟩) ch) :
      Includes c (.value type place v) ch
  | child {type place v ch} (h : Includes c (.value type place v) ch) : Includes c (.child ⟨type, place, .ok v⟩) ch
  | gather {shape chs inner ch} (hchild : inner ∈ chs) (h : Includes c (.child inner) ch) :
      Includes c (.gather shape chs) ch

/-- The error was raised by a field or an item that is asked for, and was located there. -/
def Arises (c : ExecutionContext) (a : Asked) (e : Error) : Prop :=
  ∃ ch raw, a.Includes c ch ∧ (Asked.child ch).Raises c raw ∧ e = raw.locate ch.place.group ch.place.path

/-- The error comes from what is asked for: it arises inside, or is raised by a value. -/
def Throws (c : ExecutionContext) (a : Asked) (e : Error) : Prop :=
  a.Arises c e ∨ ∃ type place v raw, a = .value type place v ∧ a.Raises c raw ∧
    (e = raw ∨ e = raw.locate place.group place.path)

theorem Arises.isLocated {e : Error} (h : a.Arises c e) : e.isLocated = true := by
  obtain ⟨ch, raw, -, -, rfl⟩ := h
  exact Error.isLocated_locate

/-- What arises inside arises in what is around it. -/
theorem Arises.of_includes {b : Asked} {e : Error} (h : b.Arises c e) (hle : ∀ ch, b.Includes c ch → a.Includes c ch) :
    a.Arises c e := by
  obtain ⟨ch, raw, hincludes, hraises, he⟩ := h
  exact ⟨ch, raw, hle ch hincludes, hraises, he⟩

/-- What is thrown inside of a value is thrown by it. -/
theorem Throws.of_value {type type' : TypeRef} {place : Place} {v v' : FieldValue} {e : Error}
    (h : (Asked.value type' place v').Throws c e)
    (hincludes : ∀ ch, (Asked.value type' place v').Includes c ch → (Asked.value type place v).Includes c ch)
    (hraises : ∀ raw, (Asked.value type' place v').Raises c raw → (Asked.value type place v).Raises c raw) :
    (Asked.value type place v).Throws c e := by
  rcases h with h | ⟨_, _, _, raw, heq, hraw, he⟩
  · exact .inl (h.of_includes hincludes)
  · cases heq
    exact .inr ⟨_, _, _, raw, rfl, hraises raw hraw, he⟩

/-- An error of its value arises in a child, where it is located unless it was before. -/
theorem Throws.arises_locate {type : TypeRef} {place : Place} {v : FieldValue} {e : Error}
    (h : (Asked.value type place v).Throws c e) :
    (Asked.child ⟨type, place, .ok v⟩).Arises c (e.locate place.group place.path) := by
  rcases h with h | ⟨_, _, _, raw, heq, hraw, he⟩
  · rw [Error.locate_of_isLocated h.isLocated]
    exact h.of_includes fun _ => .child
  · cases heq
    refine ⟨_, raw, .self, .child hraw, ?_⟩
    rcases he with rfl | rfl
    · rfl
    · exact Error.locate_locate _ _

/-- What is noted arises inside, and an error that it comes to comes from there. -/
def Traces (c : ExecutionContext) (a : Asked) : Fate → Prop
  | .note e => a.Arises c e
  | .out (.error e) => a.Throws c e
  | .out (.ok _) => True

/-- What becomes of the value of a value becomes of it. -/
theorem Traces.of_value {type type' : TypeRef} {place : Place} {v v' : FieldValue} {fate : Fate}
    (h : (Asked.value type' place v').Traces c fate)
    (hincludes : ∀ ch, (Asked.value type' place v').Includes c ch → (Asked.value type place v).Includes c ch)
    (hraises : ∀ raw, (Asked.value type' place v').Raises c raw → (Asked.value type place v).Raises c raw) :
    (Asked.value type place v).Traces c fate := by
  rcases fate with (e | w) | e
  · exact Throws.of_value h hincludes hraises
  · trivial
  · exact Arises.of_includes h hincludes

/-- What becomes of children becomes of what is around them. -/
theorem Traces.of_gather {shape : Shape} {chs : List Child} {fate : Fate} (h : (Asked.gather shape chs).Traces c fate)
    (hincludes : ∀ ch, (Asked.gather shape chs).Includes c ch → a.Includes c ch) : a.Traces c fate := by
  rcases fate with (e | w) | e
  · refine .inl ((h.resolve_right ?_).of_includes hincludes)
    rintro ⟨_, _, _, _, heq, -⟩
    exact absurd heq (by simp)
  · trivial
  · exact Arises.of_includes h hincludes

/-- What may be noted in what is asked for arises there, and an error that it may come to comes from there. -/
theorem Comes.traces {fate : Fate} (h : a.Comes c told fate) : a.Traces c fate := by
  induction h with
  | @outcome type place v out h =>
    cases out with
    | ok => trivial
    | error e => exact .inr ⟨_, _, _, e, rfl, .outcome h, .inl rfl⟩
  | awaited h _ ih => exact ih.of_value (fun _ => .awaited h) fun _ => .awaited h
  | @required type place v inner result h hinner ih =>
    cases result with
    | error e => exact Throws.of_value ih (fun _ => .required h) fun _ => .required h
    | ok w =>
      unfold FieldInfo.required
      dsimp only
      split
      · rename_i hnull
        have hsettles := hinner.settles rfl
        rw [eq_null_of_isNull hnull] at hsettles
        exact .inr ⟨_, _, _, _, rfl, .null h hsettles, .inl rfl⟩
      · trivial
  | inRequired h _ ih => exact Arises.of_includes ih fun _ => .required h
  | unstreamed h husage => exact .inr ⟨_, _, _, _, rfl, .unstreamed h husage, .inl rfl⟩
  | unlisted h husage hfirst => exact .inr ⟨_, _, _, _, rfl, .unlisted h husage hfirst, .inr rfl⟩
  | list h husage hfirst _ ih => exact ih.of_gather fun _ => .list h husage hfirst
  | uncollected h hcollected => exact .inr ⟨_, _, _, _, rfl, .uncollected h hcollected, .inl rfl⟩
  | object h hcollected _ ih => exact Traces.of_gather ih fun _ => .object h hcollected
  | @child type place v result _ _ ih =>
    cases result with
    | ok w => trivial
    | error e =>
      unfold Child.absorbed
      dsimp only
      split
      · exact .inl (Throws.arises_locate ih)
      · trivial
  | inChild _ ih => exact Arises.of_includes ih fun _ => .child
  | atChild _ _ ih => exact Throws.arises_locate ih
  | @unresolved type place raw =>
    unfold Child.absorbed
    dsimp only
    split
    · exact .inl ⟨_, raw, .self, .unresolved, rfl⟩
    · trivial
  | atUnresolved => exact ⟨_, _, .self, .unresolved, rfl⟩
  | gathered => trivial
  | failed hchild _ ih =>
    refine .inl (Arises.of_includes (ih.resolve_right ?_) fun _ => .gather hchild)
    rintro ⟨_, _, _, _, heq, -⟩
    exact absurd heq (by simp)
  | inGathered hchild _ ih => exact Arises.of_includes ih fun _ => .gather hchild

end Asked

end GraphQL
