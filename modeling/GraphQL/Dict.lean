/-!
# Ordered dictionaries

A dictionary is the list of its entries in the order in which their keys were first written.  Writing a key
that is already there replaces its value and keeps its place, so a dictionary built by `insert` alone has
distinct keys (`nodup_keys_insert`), and `get?` returns what was last written (`get?_insert`).
-/

namespace GraphQL

/-- Entries in the order in which their keys were first written. -/
abbrev Dict (α : Type) := List (String × α)

namespace Dict

variable {α β : Type}

/-- The value of the first entry with the key. -/
def get? : Dict α → String → Option α
  | [], _ => none
  | (k, v) :: rest, key => if k = key then some v else get? rest key

/-- Writes a value: in place if the key is there, at the end if not. -/
def insert : Dict α → String → α → Dict α
  | [], key, value => [(key, value)]
  | (k, v) :: rest, key, value =>
    if k = key then (k, value) :: rest else (k, v) :: insert rest key value

/-- Drops the entries with the key; the others keep their order. -/
def erase (d : Dict α) (key : String) : Dict α := d.filter (·.1 ≠ key)

/-- The keys in order. -/
def keys (d : Dict α) : List String := d.map (·.1)

/-- The values in the order of their keys. -/
def values (d : Dict α) : List α := d.map (·.2)

/-- Whether an entry has the key. -/
def contains (d : Dict α) (key : String) : Bool := (d.get? key).isSome

/-- Writes the entries one after the other into an empty dictionary. -/
def ofEntries (entries : List (String × α)) : Dict α :=
  entries.foldl (fun d e => d.insert e.1 e.2) []

/-- Applies a function to every value and keeps the keys. -/
def mapValues (f : α → β) (d : Dict α) : Dict β := d.map fun e => (e.1, f e.2)

@[simp]
theorem get?_nil (key : String) : get? ([] : Dict α) key = none := rfl

@[simp]
theorem get?_insert (d : Dict α) (key other : String) (value : α) :
    get? (d.insert key value) other = if key = other then some value else get? d other := by
  induction d with
  | nil => simp [insert, get?]
  | cons e rest ih =>
    obtain ⟨k, v⟩ := e
    unfold insert
    split <;> simp only [get?] <;> grind

theorem mem_keys_insert (d : Dict α) (key other : String) (value : α) :
    other ∈ keys (d.insert key value) ↔ other = key ∨ other ∈ keys d := by
  induction d with
  | nil => simp [insert, keys]
  | cons e rest ih =>
    obtain ⟨k, v⟩ := e
    unfold insert
    split
    · simp_all [keys]
    · simp only [keys, List.map_cons, List.mem_cons] at ih ⊢
      rw [ih]
      exact or_left_comm

/-- Writing keeps the keys distinct. -/
theorem nodup_keys_insert {d : Dict α} (h : (keys d).Nodup) (key : String) (value : α) :
    (keys (d.insert key value)).Nodup := by
  induction d with
  | nil => simp [insert, keys]
  | cons e rest ih =>
    obtain ⟨k, v⟩ := e
    have hrest : k ∉ keys rest ∧ (keys rest).Nodup := List.nodup_cons.1 h
    unfold insert
    split
    · exact h
    · rename_i hne
      refine List.nodup_cons.2 ⟨fun hmem => ?_, ih hrest.2⟩
      rcases (mem_keys_insert rest key k value).1 hmem with heq | hmem
      · exact hne heq
      · exact hrest.1 hmem

theorem mem_of_get? {d : Dict α} {key : String} {value : α} (h : get? d key = some value) : (key, value) ∈ d := by
  induction d with
  | nil => exact absurd h (by simp)
  | cons e rest ih =>
    obtain ⟨k, v⟩ := e
    unfold get? at h
    split at h
    · rename_i hk
      obtain rfl := Option.some.inj h
      exact hk ▸ List.mem_cons_self
    · exact List.mem_cons_of_mem _ (ih h)

/-- With distinct keys, every entry is found. -/
theorem get?_of_mem {d : Dict α} (hkeys : (keys d).Nodup) {key : String} {value : α} (h : (key, value) ∈ d) :
    get? d key = some value := by
  induction d with
  | nil => exact absurd h List.not_mem_nil
  | cons e rest ih =>
    obtain ⟨k, v⟩ := e
    obtain ⟨hk, hrest⟩ := List.nodup_cons.1 hkeys
    rcases List.mem_cons.1 h with heq | h
    · obtain ⟨rfl, rfl⟩ := Prod.mk.inj heq
      exact if_pos rfl
    · have hne : k ≠ key := fun heq => hk (List.mem_map.2 ⟨(key, value), h, heq.symm⟩)
      exact (if_neg hne).trans (ih hrest h)

/-- Entries with distinct keys that are written are found, and other keys keep their values. -/
theorem get?_foldl_insert {entries : Dict α} (h : (keys entries).Nodup) (d : Dict α) (key : String) :
    get? (entries.foldl (fun d e => d.insert e.1 e.2) d) key = (get? entries key).or (get? d key) := by
  induction entries generalizing d with
  | nil => rfl
  | cons e rest ih =>
    obtain ⟨k, v⟩ := e
    obtain ⟨hk, hrest⟩ := List.nodup_cons.1 h
    rw [List.foldl_cons, ih hrest, get?_insert,
      show get? ((k, v) :: rest) key = if k = key then some v else get? rest key from rfl]
    by_cases heq : k = key
    · have hnone : get? rest key = none := by
        cases hget : get? rest key with
        | none => rfl
        | some v' => exact absurd (List.mem_map_of_mem (mem_of_get? hget)) (heq ▸ hk)
      simp [heq, hnone]
    · simp [heq]

end Dict

end GraphQL
