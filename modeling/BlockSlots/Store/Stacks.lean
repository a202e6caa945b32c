import BlockSlots.Store.Table

/-! # Stacks under names

A stack for each of a number of names, the newest element on top. A name whose stack has become
empty keeps its place among the names, so a listing shows what is pushed under it later at that
same place.

* `stack_push_self`, `stack_push_of_ne`: stacks after a push.
* `pop?_eq_none_iff`, `stack_of_pop?`: when nothing can be taken off, and what is left otherwise.
-/

set_option autoImplicit false

namespace BlockSlots

/-- A stack of values for each of a number of names. -/
structure Stacks (α : Type) where
  /-- The stacks, each with its newest element first. -/
  table : Table (List α) := {}
deriving DecidableEq, Repr

namespace Stacks

variable {α : Type}

/-- The stack under a name, newest element first. -/
def stack (s : Stacks α) (key : String) : List α := (s.table.get? key).getD []

/-- Puts a value on top of the stack under a name. -/
def push (s : Stacks α) (key : String) (a : α) : Stacks α :=
  ⟨s.table.update key fun old? => a :: old?.getD []⟩

/-- Takes the value on top of the stack under a name. -/
def pop? (s : Stacks α) (key : String) : Option (α × Stacks α) :=
  match s.stack key with
  | [] => none
  | a :: rest => some (a, ⟨s.table.insert key rest⟩)

/-- The value on top of the stack under a name. -/
def top? (s : Stacks α) (key : String) : Option α := (s.stack key).head?

/-- Every value: the stacks in the order of their names, each from its oldest element on. -/
def toList (s : Stacks α) : List α := s.table.entries.flatMap fun e => e.2.reverse

@[simp] theorem stack_push_self (s : Stacks α) (key : String) (a : α) :
    (s.push key a).stack key = a :: s.stack key := by
  simp [push, stack]

theorem stack_push_of_ne {key other : String} (h : other ≠ key) (s : Stacks α) (a : α) :
    (s.push key a).stack other = s.stack other := by
  simp [push, stack, Table.get?_update_of_ne h]

theorem pop?_eq_none_iff {s : Stacks α} {key : String} : s.pop? key = none ↔ s.stack key = [] := by
  unfold pop?
  split <;> simp [*]

theorem stack_of_pop? {s rest : Stacks α} {key : String} {a : α} (h : s.pop? key = some (a, rest)) :
    s.stack key = a :: rest.stack key := by
  unfold pop? at h
  split at h
  · cases h
  · next hs =>
    cases h
    rw [hs]
    simp [stack, Table.insert]

theorem stack_of_pop?_of_ne {s rest : Stacks α} {key other : String} {a : α} (hne : other ≠ key)
    (h : s.pop? key = some (a, rest)) : rest.stack other = s.stack other := by
  unfold pop? at h
  split at h
  · cases h
  · cases h
    simp [stack, Table.insert, Table.get?_update_of_ne hne]

end Stacks

end BlockSlots
