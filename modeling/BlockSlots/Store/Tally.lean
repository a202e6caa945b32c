import BlockSlots.Store.Table

/-! # Counting under names

A tally counts how often each name was added and numbers the names by their first appearance.
-/

set_option autoImplicit false

namespace BlockSlots

/-- How often each of a number of names was added. -/
structure Tally where
  table : Table Nat := {}
deriving DecidableEq, Repr

namespace Tally

/-- How often a name was added. -/
def count (t : Tally) (key : String) : Nat := (t.table.get? key).getD 0

/-- The number of a name: how many other names came before it. -/
def number (t : Tally) (key : String) : Nat := t.table.position key

/-- Adds a name once more. -/
def add (t : Tally) (key : String) : Tally := ⟨t.table.update key fun n? => n?.getD 0 + 1⟩

/-- How many names there are. -/
def size (t : Tally) : Nat := t.table.size

/-- How often names were added in all. -/
def total (t : Tally) : Nat := t.table.entries.foldr (fun e n => e.2 + n) 0

@[simp] theorem count_add_self (t : Tally) (key : String) :
    (t.add key).count key = t.count key + 1 := by
  simp [add, count]

theorem count_add_of_ne {key other : String} (h : other ≠ key) (t : Tally) :
    (t.add key).count other = t.count other := by
  simp [add, count, Table.get?_update_of_ne h]

theorem foldr_put (key : String) (entries : List (String × Nat)) :
    (Table.put key (fun n? => n?.getD 0 + 1) entries).foldr (fun e n => e.2 + n) 0 =
      entries.foldr (fun e n => e.2 + n) 0 + 1 := by
  induction entries with
  | nil => rfl
  | cons e entries ih =>
    obtain ⟨k, n⟩ := e
    by_cases h : key = k
    · simp [Table.put, h]
      omega
    · simp only [Table.put, if_neg h, List.foldr_cons, ih]
      omega

@[simp] theorem total_add (t : Tally) (key : String) : (t.add key).total = t.total + 1 :=
  foldr_put key t.table.entries

end Tally

end BlockSlots
