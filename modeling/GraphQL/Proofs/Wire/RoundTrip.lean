import GraphQL.Proofs.Execution.Course
import GraphQL.Proofs.Requests
import GraphQL.Wire.Payload

/-!
# Payloads are read back

What is written is read back as it was: paths, errors, initial and subsequent results and all of their entries
(`Wire.read_written`), provided that the numbers in them have the widths of lines, columns and indices.  The parts of a
record that are not written are those that the reader fills in.

The one exception is a response whose data is null.  It is written with its data, but read without any, like the response
to a request that was rejected (`null_data_read_as_none`).
-/

namespace GraphQL

/-! ### Numbers of a limited width -/

/-- The line and the column have 32 bits. -/
def Location.Fits (l : Location) : Prop := l.line ≤ maxOffset ∧ l.column ≤ maxOffset

/-- An index has 64 bits. -/
def PathSegment.Fits : PathSegment → Prop
  | key _ => True
  | index position => position ≤ Path.maxIndex

/-- All indices have 64 bits. -/
def Path.Fits (p : Path) : Prop := ∀ segment ∈ p.segments, segment.Fits

/-- All numbers of the error have their widths. -/
structure Error.Fits (e : Error) : Prop where
  locations : ∀ l ∈ e.locations, l.Fits
  path : ∀ p ∈ e.path, p.Fits

/-- All numbers of the entry have their widths. -/
structure CompletedEntry.Fits (e : CompletedEntry) : Prop where
  path : e.path.Fits
  errors : ∀ error ∈ e.errors, error.Fits

/-- The place of an entry and its errors. -/
def IncrementalEntry.marks : IncrementalEntry → CompletedEntry
  | defer e => ⟨e.path, e.label, e.errors⟩
  | stream e => ⟨e.path, e.label, e.errors⟩

/-- All numbers of the result have their widths. -/
structure SubsequentResult.Fits (r : SubsequentResult) : Prop where
  incremental : ∀ e ∈ r.incremental, e.marks.Fits
  completed : ∀ e ∈ r.completed, e.Fits

/-! ### Parts of records -/

namespace Dict

variable {α : Type}

@[simp]
theorem get?_singleton (key wanted : String) (value : α) :
    get? [(key, value)] wanted = if key = wanted then some value else none := rfl

end Dict

namespace Wire

variable {α : Type}

/-- A list is read back if its members are. -/
theorem list?_map {read : Json → Option α} {write : α → Json} {xs : List α} (h : ∀ x ∈ xs, read (write x) = some x) :
    list? read (.array (xs.map write)) = some xs := by
  change (xs.map write).mapM read = some xs
  induction xs with
  | nil => rfl
  | cons x rest ih =>
    rw [List.map_cons, List.mapM_cons, h x List.mem_cons_self, ih fun y hy => h y (List.mem_cons_of_mem x hy)]
    rfl

/-- An object of any values is read as it is. -/
theorem dict?_any (fields : Dict Json) : dict? any? (.object fields) = some fields := by
  change fields.mapM (fun e => (any? e.2).map (e.1, ·)) = some fields
  induction fields with
  | nil => rfl
  | cons e rest ih =>
    rw [List.mapM_cons, ih]
    rfl

theorem natUpTo?_ofNat {bound n : Nat} (h : n ≤ bound) : natUpTo? bound (.ofNat n) = some n := by
  have hholds : 0 ≤ (n : Int) ∧ (n : Int) ≤ bound := ⟨Int.natCast_nonneg n, by exact_mod_cast h⟩
  simp [natUpTo?, Json.ofNat, hholds]

namespace Parts

variable {fields : Dict Json}

/-- A field that is there is read, if it can be. -/
theorem required_named {name : String} {read : Json → Option α} {j : Json} {a : α} (position : Nat)
    (hname : Dict.get? fields name = some j) (h : read j = some a) :
    (named fields).required position name read = some a := by
  change (Dict.get? fields name).bind read = some a
  rw [hname]
  exact h

/-- A list that is left out when it is empty is read back. -/
theorem withDefault_named {name : String} {read : Json → Option α} {write : α → Json} {xs : List α} (position : Nat)
    (hname : Dict.get? fields name = if xs.isEmpty then none else some (.array (xs.map write)))
    (h : ∀ x ∈ xs, read (write x) = some x) :
    (named fields).withDefault position name [] (list? read) = some xs := by
  unfold withDefault get?
  dsimp only
  rw [hname]
  cases xs with
  | nil => rfl
  | cons x rest => exact list?_map h

/-- What is left out when it is absent, and not null when it is there, is read back. -/
theorem optionalWithDefault_named {name : String} {read : Json → Option α} {write : α → Json} {a? : Option α}
    (position : Nat) (hname : Dict.get? fields name = a?.map write)
    (h : ∀ a ∈ a?, write a ≠ .null ∧ read (write a) = some a) :
    (named fields).optionalWithDefault position name read = some a? := by
  unfold optionalWithDefault get?
  dsimp only
  rw [hname]
  cases a? with
  | none => rfl
  | some a =>
    obtain ⟨hnull, hread⟩ := h a rfl
    dsimp only [Option.map_some]
    split
    · contradiction
    · rename_i heq
      exact absurd (Option.some.inj heq) hnull
    · rename_i heq
      rw [← Option.some.inj heq, hread]
      rfl

end Parts

end Wire

/-! ### Errors -/

theorem Location.ofJson?_toJson {l : Location} (h : l.Fits) : ofJson? l.toJson = some l := by
  change ((Wire.Parts.named _).required 0 "line" _).bind _ = some l
  rw [Wire.Parts.required_named 0 rfl (Wire.natUpTo?_ofNat h.1), Option.bind_some,
    Wire.Parts.required_named 1 rfl (Wire.natUpTo?_ofNat h.2)]
  rfl

theorem Path.segmentOfJson?_toJson {segment : PathSegment} (h : segment.Fits) :
    segmentOfJson? segment.toJson = some segment := by
  cases segment with
  | key name => rfl
  | index position =>
    change (Wire.natUpTo? maxIndex (.ofNat position)).map PathSegment.index = some (.index position)
    rw [Wire.natUpTo?_ofNat h]
    rfl

theorem Path.ofJson?_toJson {p : Path} (h : p.Fits) : ofJson? p.toJson = some p := by
  unfold ofJson? toJson
  rw [Wire.list?_map fun segment hsegment => segmentOfJson?_toJson (h segment hsegment)]
  rfl

/-- The fields of an error, by their names. -/
theorem Error.get?_toJson (e : Error) : ∃ fields, e.toJson = .object fields ∧
    Dict.get? fields "message" = some (.string e.message) ∧
    Dict.get? fields "locations" =
      (if e.locations.isEmpty then none else some (.array (e.locations.map Location.toJson))) ∧
    Dict.get? fields "path" = e.path.map Path.toJson ∧ Dict.get? fields "extensions" = e.extensions.map .object := by
  refine ⟨_, rfl, ?_⟩
  obtain ⟨message, locations, path, extensions⟩ := e
  cases locations <;> cases path <;> cases extensions <;> simp [Dict.get?]

theorem Error.ofJson?_toJson {e : Error} (h : e.Fits) : ofJson? e.toJson = some e := by
  obtain ⟨fields, heq, hmessage, hlocations, hpath, hextensions⟩ := e.get?_toJson
  have hmessage := Wire.Parts.required_named 0 hmessage (show Wire.text? _ = some _ from rfl)
  have hlocations := Wire.Parts.withDefault_named 1 hlocations fun l hl => Location.ofJson?_toJson (h.locations l hl)
  have hpath := Wire.Parts.optionalWithDefault_named 2 hpath fun p hp =>
    ⟨by simp [Path.toJson], Path.ofJson?_toJson (h.path p hp)⟩
  have hextensions := Wire.Parts.optionalWithDefault_named 3 hextensions fun x _ => ⟨by simp, Wire.dict?_any x⟩
  simp [ofJson?, heq, Wire.Parts.of?, hmessage, hlocations, hpath, hextensions]

/-! ### Entries and results -/

namespace Wire.Parts

variable {fields : Dict Json}

theorem label_named {label : Option String} (position : Nat)
    (hname : Dict.get? fields "label" = label.map Json.string) : (named fields).label position = some label :=
  optionalWithDefault_named position hname fun _ _ => ⟨by simp, rfl⟩

theorem errors_named {errors : List Error} (position : Nat)
    (hname : Dict.get? fields "errors" = if errors.isEmpty then none else some (.array (errors.map Error.toJson)))
    (h : ∀ e ∈ errors, e.Fits) : (named fields).errors position = some errors :=
  withDefault_named position hname fun e he => Error.ofJson?_toJson (h e he)

end Wire.Parts

/-- The fields of a response, by their names. -/
theorem Response.get?_toJson (r : Response) : ∃ fields, r.toJson = .object fields ∧
    Dict.get? fields "data" = r.data ∧
    Dict.get? fields "errors" = if r.errors.isEmpty then none else some (.array (r.errors.map Error.toJson)) := by
  refine ⟨_, rfl, ?_⟩
  obtain ⟨data, errors⟩ := r
  cases data <;> cases errors <;> simp [Error.fieldOf, Dict.get?]

/-- A response is read back, but for null data. -/
theorem Response.ofJson?_toJson {r : Response} (h : ∀ e ∈ r.errors, e.Fits) :
    ofJson? r.toJson = some { r with data := r.data.filter (· ≠ .null) } := by
  obtain ⟨fields, heq, hdata, herrors⟩ := r.get?_toJson
  have herrors := Wire.Parts.errors_named 1 herrors h
  have hread : (Wire.Parts.named fields).optionalWithDefault 0 "data" Wire.any? =
      some (r.data.filter (· ≠ .null)) := by
    unfold Wire.Parts.optionalWithDefault Wire.Parts.get?
    dsimp only
    rw [hdata]
    cases hdata : r.data with
    | none => rfl
    | some v => cases v <;> rfl
  simp [ofJson?, heq, Wire.Parts.of?, hread, herrors]

theorem InitialResult.get?_toJson (r : InitialResult) : ∃ fields, r.toJson = .object fields ∧
    Dict.get? fields "data" = some r.data ∧
    Dict.get? fields "errors" = (if r.errors.isEmpty then none else some (.array (r.errors.map Error.toJson))) ∧
    Dict.get? fields "hasNext" = some (.bool r.hasNext) := by
  refine ⟨_, rfl, ?_⟩
  obtain ⟨data, errors, hasNext⟩ := r
  cases errors <;> simp [Error.fieldOf, Dict.get?]

theorem InitialResult.ofJson?_toJson {r : InitialResult} (h : ∀ e ∈ r.errors, e.Fits) :
    ofJson? r.toJson = some r := by
  obtain ⟨fields, heq, hdata, herrors, hnext⟩ := r.get?_toJson
  have hdata := Wire.Parts.required_named 0 hdata (show Wire.any? _ = some _ from rfl)
  have herrors := Wire.Parts.errors_named 1 herrors h
  have hnext := Wire.Parts.required_named 2 hnext (show Wire.bool? _ = some _ from rfl)
  simp [ofJson?, heq, Wire.Parts.of?, hdata, herrors, hnext]

/-- The fields of an entry with data, by their names. -/
theorem IncrementalEntry.get?_toJson (e : IncrementalEntry) : ∃ fields, e.toJson = .object fields ∧
    Dict.get? fields "data" = (match e with
      | .defer d => some d.data
      | .stream _ => none) ∧
    Dict.get? fields "items" = (match e with
      | .defer _ => none
      | .stream s => some (.array s.items)) ∧
    Dict.get? fields "path" = some e.marks.path.toJson ∧ Dict.get? fields "label" = e.marks.label.map Json.string ∧
    Dict.get? fields "errors" =
      if e.marks.errors.isEmpty then none else some (.array (e.marks.errors.map Error.toJson)) := by
  cases e with
  | defer d =>
    refine ⟨_, rfl, ?_⟩
    obtain ⟨data, path, label, errors⟩ := d
    cases label <;> cases errors <;> simp [marks, Error.fieldOf, Json.labelField, Dict.get?]
  | stream s =>
    refine ⟨_, rfl, ?_⟩
    obtain ⟨items, path, label, errors⟩ := s
    cases label <;> cases errors <;> simp [marks, Error.fieldOf, Json.labelField, Dict.get?]

/-- An entry is read as one of its own kind: only the data of a fragment is written under its name. -/
theorem IncrementalEntry.ofJson?_toJson {e : IncrementalEntry} (h : e.marks.Fits) : ofJson? e.toJson = some e := by
  obtain ⟨fields, heq, hdata, hitems, hpath, hlabel, herrors⟩ := e.get?_toJson
  have hpath := Wire.Parts.required_named 1 hpath (Path.ofJson?_toJson h.path)
  have hlabel := Wire.Parts.label_named 2 hlabel
  have herrors := Wire.Parts.errors_named 3 herrors h.errors
  cases e with
  | defer d =>
    have hdata := Wire.Parts.required_named 0 hdata (show Wire.any? _ = some _ from rfl)
    simp [ofJson?, DeferEntry.ofJson?, heq, Wire.Parts.of?, hdata, hpath, hlabel, herrors, marks]
  | stream s =>
    have hmissing : (Wire.Parts.named fields).required 0 "data" Wire.any? = none := by
      simp [Wire.Parts.required, Wire.Parts.get?, hdata]
    have hitems := Wire.Parts.required_named 0 hitems
      ((congrArg (Wire.list? Wire.any? ∘ Json.array) (List.map_id _).symm).trans
        (Wire.list?_map fun x _ => (show Wire.any? (id x) = some x from rfl)))
    simp [ofJson?, DeferEntry.ofJson?, StreamEntry.ofJson?, heq, Wire.Parts.of?, hmissing, hitems, hpath, hlabel, herrors,
      marks]

theorem CompletedEntry.get?_toJson (e : CompletedEntry) : ∃ fields, e.toJson = .object fields ∧
    Dict.get? fields "path" = some e.path.toJson ∧ Dict.get? fields "label" = e.label.map Json.string ∧
    Dict.get? fields "errors" = if e.errors.isEmpty then none else some (.array (e.errors.map Error.toJson)) := by
  refine ⟨_, rfl, ?_⟩
  obtain ⟨path, label, errors⟩ := e
  cases label <;> cases errors <;> simp [Error.fieldOf, Json.labelField, Dict.get?]

theorem CompletedEntry.ofJson?_toJson {e : CompletedEntry} (h : e.Fits) : ofJson? e.toJson = some e := by
  obtain ⟨fields, heq, hpath, hlabel, herrors⟩ := e.get?_toJson
  have hpath := Wire.Parts.required_named 0 hpath (Path.ofJson?_toJson h.path)
  have hlabel := Wire.Parts.label_named 1 hlabel
  have herrors := Wire.Parts.errors_named 2 herrors h.errors
  simp [ofJson?, heq, Wire.Parts.of?, hpath, hlabel, herrors]

theorem SubsequentResult.get?_toJson (r : SubsequentResult) : ∃ fields, r.toJson = .object fields ∧
    Dict.get? fields "incremental" =
      (if r.incremental.isEmpty then none else some (.array (r.incremental.map IncrementalEntry.toJson))) ∧
    Dict.get? fields "completed" =
      (if r.completed.isEmpty then none else some (.array (r.completed.map CompletedEntry.toJson))) ∧
    Dict.get? fields "hasNext" = some (.bool r.hasNext) := by
  refine ⟨_, rfl, ?_⟩
  obtain ⟨incremental, completed, hasNext⟩ := r
  cases incremental <;> cases completed <;> simp [Dict.get?]

theorem SubsequentResult.ofJson?_toJson {r : SubsequentResult} (h : r.Fits) : ofJson? r.toJson = some r := by
  obtain ⟨fields, heq, hincremental, hcompleted, hnext⟩ := r.get?_toJson
  have hincremental := Wire.Parts.withDefault_named 0 hincremental fun e he =>
    IncrementalEntry.ofJson?_toJson (h.incremental e he)
  have hcompleted := Wire.Parts.withDefault_named 1 hcompleted fun e he =>
    CompletedEntry.ofJson?_toJson (h.completed e he)
  have hnext := Wire.Parts.required_named 2 hnext (show Wire.bool? _ = some _ from rfl)
  simp [ofJson?, heq, Wire.Parts.of?, hincremental, hcompleted, hnext]

/-- What is written is read back as it was, each kind of entry as itself.  A response is read back exactly if its data is
not null; with null data it is read as one without data. -/
theorem Wire.read_written (p : Path) (e : Error) (entry : IncrementalEntry) (completed : CompletedEntry)
    (initial : InitialResult) (result : SubsequentResult) (response : Response) :
    (p.Fits → Path.ofJson? p.toJson = some p) ∧
    (e.Fits → Error.ofJson? e.toJson = some e) ∧
    (entry.marks.Fits → IncrementalEntry.ofJson? entry.toJson = some entry) ∧
    (completed.Fits → CompletedEntry.ofJson? completed.toJson = some completed) ∧
    ((∀ e ∈ initial.errors, e.Fits) → InitialResult.ofJson? initial.toJson = some initial) ∧
    (result.Fits → SubsequentResult.ofJson? result.toJson = some result) ∧
    ((∀ e ∈ response.errors, e.Fits) →
      Response.ofJson? response.toJson = some { response with data := response.data.filter (· ≠ .null) } ∧
        (Response.ofJson? response.toJson = some response ↔ response.data ≠ some .null)) := by
  refine ⟨Path.ofJson?_toJson, Error.ofJson?_toJson, IncrementalEntry.ofJson?_toJson, CompletedEntry.ofJson?_toJson,
    InitialResult.ofJson?_toJson, SubsequentResult.ofJson?_toJson, fun h => ?_⟩
  have hread := Response.ofJson?_toJson h
  refine ⟨hread, ?_⟩
  rw [hread]
  obtain ⟨data, errors⟩ := response
  cases data <;> simp

/-- A result with entries of both kinds, one of them with a located error, is read back. -/
theorem read_result_of_both_kinds : ∃ r : SubsequentResult,
    r.incremental = [.defer ⟨.object [("a", .null)], .root, some "slow",
      [⟨"no", [⟨1, 3⟩], some (Path.root.key "a"), none⟩]⟩, .stream ⟨[.string "x"], (Path.root.key "l").index 1, none, []⟩] ∧
    r.Fits ∧ SubsequentResult.ofJson? r.toJson = some r := by
  let r : SubsequentResult := ⟨[.defer ⟨.object [("a", .null)], .root, some "slow",
    [⟨"no", [⟨1, 3⟩], some (Path.root.key "a"), none⟩]⟩, .stream ⟨[.string "x"], (Path.root.key "l").index 1, none, []⟩],
    [⟨.root, some "slow", []⟩], false⟩
  have hroot : Path.root.Fits := fun _ h => absurd h List.not_mem_nil
  have herror : Error.Fits ⟨"no", [⟨1, 3⟩], some (Path.root.key "a"), none⟩ := by
    refine ⟨fun l hl => ?_, fun p hp segment hsegment => ?_⟩
    · obtain rfl := List.mem_singleton.1 hl
      exact ⟨by decide, by decide⟩
    · obtain rfl := Option.some.inj hp
      obtain rfl : segment = .key "a" := List.mem_singleton.1 hsegment
      exact trivial
  have hitem : Path.Fits ((Path.root.key "l").index 1) := by
    intro segment hsegment
    rcases List.mem_cons.1 hsegment with rfl | hsegment
    · exact trivial
    · obtain rfl := List.mem_singleton.1 hsegment
      exact (by decide : 1 ≤ Path.maxIndex)
  have hfits : r.Fits := by
    refine ⟨fun e he => ?_, fun e he => ?_⟩
    · rcases List.mem_cons.1 he with rfl | he
      · exact ⟨hroot, fun error h => List.mem_singleton.1 h ▸ herror⟩
      · obtain rfl := List.mem_singleton.1 he
        exact ⟨hitem, fun error h => absurd h List.not_mem_nil⟩
    · obtain rfl := List.mem_singleton.1 he
      exact ⟨hroot, fun error h => absurd h List.not_mem_nil⟩
  have hread := Wire.read_written .root (.ofMessage "no") (.stream ⟨[.string "x"], .root, none, []⟩) ⟨.root, none, []⟩
    ⟨.null, [], true⟩ r {}
  exact ⟨r, rfl, hfits, hread.2.2.2.2.2.1 hfits⟩

/-! ### Null data -/

/-- The only field of the operation must not be null, and fails. -/
def failingRoot : ExecutionContext :=
  .ofSelections [.ofFields "Query" [("must", .nonNull (.named "String"))]]
    [("Query.must", { resolve := fun _ => .error (.custom "no") })] (.object []) [.named "must"]

/-- The response of `failingRoot`. -/
private theorem response_failingRoot : ((failingRoot.respondWith 10).run failingRoot.stage).map (fun p =>
    match p.1 with
    | some (.single r) => some r
    | _ => none) = some (some ⟨some .null, [⟨"no", [⟨1, 1⟩], some (Path.root.key "must"), none⟩]⟩) := by
  decide +kernel

/-- The response of `failingRoot` has null data, but it is read like the response to a rejected request. -/
theorem null_data_read_as_none : ∃ s,
    (failingRoot.respondWith 10).run failingRoot.stage =
      some (some (.single ⟨some .null, [⟨"no", [⟨1, 1⟩], some (Path.root.key "must"), none⟩]⟩), s) ∧
    Response.ofJson? (Response.toJson ⟨some .null, [⟨"no", [⟨1, 1⟩], some (Path.root.key "must"), none⟩]⟩) =
      some ⟨none, [⟨"no", [⟨1, 1⟩], some (Path.root.key "must"), none⟩]⟩ := by
  obtain ⟨⟨answer, s⟩, hrun, hanswer⟩ := Option.map_eq_some_iff.1 response_failingRoot
  refine ⟨s, ?_, by decide +kernel⟩
  cases answer with
  | none => exact absurd hanswer (by simp)
  | some answer =>
    cases answer with
    | single r =>
      obtain rfl := Option.some.inj hanswer
      exact hrun
    | incremental initial => exact absurd hanswer (by simp)

end GraphQL
