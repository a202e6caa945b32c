/-! # Tables with named entries

A table keeps its keys in the order in which they were first entered. Changing the value under a
key leaves the key in its place; a new key goes to the end. No key is ever taken out.

* `get?_update_self`, `get?_update_of_ne`: what a look-up finds after a change.
* `keys_update`: where the keys stand after a change.
-/

set_option autoImplicit false

namespace BlockSlots

/-- A table of values under names, in the order in which the names were first entered. -/
structure Table (α : Type) where
  entries : List (String × α) := []
deriving DecidableEq, Repr

namespace Table

variable {α : Type}

/-- The names, in the order in which they were first entered. -/
def keys (t : Table α) : List String := t.entries.map (·.1)

/-- The values, in the order of their names. -/
def values (t : Table α) : List α := t.entries.map (·.2)

/-- The number of names. -/
def size (t : Table α) : Nat := t.entries.length

/-- The value under a name. -/
def get? (t : Table α) (key : String) : Option α := t.entries.lookup key

/-- Changes the value under `key` in a list of entries. -/
def put (key : String) (f : Option α → α) : List (String × α) → List (String × α)
  | [] => [(key, f none)]
  | (k, a) :: entries =>
    if key = k then (k, f (some a)) :: entries else (k, a) :: put key f entries

/-- Puts `f v` under a name, where `v` is the value found there, if any. -/
def update (t : Table α) (key : String) (f : Option α → α) : Table α := ⟨put key f t.entries⟩

/-- Puts a value under a name, in place of the one found there. -/
def insert (t : Table α) (key : String) (a : α) : Table α := t.update key fun _ => a

/-- The table that results from putting values under names one after the other. -/
def ofList (pairs : List (String × α)) : Table α :=
  pairs.foldl (fun t p => t.insert p.1 p.2) {}

/-- The place of a name, counted from zero; for a name that is not there, the place it would get. -/
def position (t : Table α) (key : String) : Nat := t.keys.findIdx (key == ·)

/-! ## What a change does -/

theorem lookup_put_self (key : String) (f : Option α → α) (entries : List (String × α)) :
    (put key f entries).lookup key = some (f (entries.lookup key)) := by
  induction entries with
  | nil => simp [put]
  | cons e entries ih =>
    obtain ⟨k, a⟩ := e
    by_cases h : key = k
    · simp [put, h]
    · have hb : (key == k) = false := beq_eq_false_iff_ne.2 h
      simp only [put, if_neg h, List.lookup_cons, hb]
      exact ih

theorem lookup_put_of_ne {key other : String} (h : other ≠ key) (f : Option α → α)
    (entries : List (String × α)) : (put key f entries).lookup other = entries.lookup other := by
  induction entries with
  | nil => simp [put, List.lookup_cons, beq_eq_false_iff_ne.2 h]
  | cons e entries ih =>
    obtain ⟨k, a⟩ := e
    by_cases hk : key = k
    · subst hk
      have hb : (other == key) = false := beq_eq_false_iff_ne.2 h
      simp [put, List.lookup_cons, hb]
    · simp only [put, if_neg hk, List.lookup_cons, ih]

@[simp] theorem get?_update_self (t : Table α) (key : String) (f : Option α → α) :
    (t.update key f).get? key = some (f (t.get? key)) :=
  lookup_put_self key f t.entries

theorem get?_update_of_ne {key other : String} (h : other ≠ key) (t : Table α)
    (f : Option α → α) : (t.update key f).get? other = t.get? other :=
  lookup_put_of_ne h f t.entries

theorem map_fst_put (key : String) (f : Option α → α) (entries : List (String × α)) :
    (put key f entries).map (·.1) =
      if key ∈ entries.map (·.1) then entries.map (·.1) else entries.map (·.1) ++ [key] := by
  induction entries with
  | nil => simp [put]
  | cons e entries ih =>
    obtain ⟨k, a⟩ := e
    by_cases h : key = k
    · simp [put, h]
    · rw [put, if_neg h, List.map_cons, List.map_cons, ih]
      by_cases hm : key ∈ entries.map (·.1)
      · rw [if_pos hm, if_pos (List.mem_cons_of_mem _ hm)]
      · rw [if_neg hm, if_neg (by simpa [h] using hm), List.cons_append]

theorem keys_update (t : Table α) (key : String) (f : Option α → α) :
    (t.update key f).keys = if key ∈ t.keys then t.keys else t.keys ++ [key] :=
  map_fst_put key f t.entries

end Table

end BlockSlots
