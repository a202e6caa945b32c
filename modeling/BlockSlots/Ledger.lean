/-! # The ledger of bindings

Every declaration of a run adds a record to the ledger: the binding as dialects see it, and the
number of the block it belongs to. Records are never taken out, so a reference stays valid after
its block has ended. Several bindings can live in one slot of a block, one after the other; a slot
counts as used when any of them is.

* `get?_push_of_lt`, `get?_push_size`: a new record changes none of those before it.
* `get?_noteUse`: noting the use of a record changes no other.
-/

set_option autoImplicit false

namespace BlockSlots

/-- The place of a record in the ledger, counted from zero. -/
abbrev Ref := Nat

/-- A storage place of a block. -/
structure Slot where
  /-- The number of the slot in its block. -/
  id : Nat
  /-- The number of its type tag, among those of the block in the order of their first use. -/
  kind : Nat
  /-- The number of the slot among those of its type tag. -/
  index : Nat
deriving DecidableEq, Repr

/-- A declared name, as dialects see it. -/
structure Binding where
  name : String
  /-- The type tag; empty if the declaration gives none. -/
  tag : String
  slot : Slot
  /-- Whether a plain line refers to the binding. -/
  used : Bool
deriving DecidableEq, Repr

/-- A record of the ledger. -/
structure Row where
  binding : Binding
  /-- The number of the block that the binding belongs to. -/
  block : Nat
deriving DecidableEq, Repr

/-- Whether two records stand for the same slot. -/
def Row.sameSlot (a b : Row) : Bool := a.block == b.block && a.binding.slot.id == b.binding.slot.id

/-- Every record of a run, in the order of declaration. -/
structure Ledger where
  rows : Array Row := #[]
deriving DecidableEq, Repr

namespace Ledger

/-- The number of records, which is the reference that the next one gets. -/
def size (l : Ledger) : Nat := l.rows.size

/-- Adds a record. -/
def push (l : Ledger) (row : Row) : Ledger := ⟨l.rows.push row⟩

/-- The record under a reference. -/
def get? (l : Ledger) (r : Ref) : Option Row := l.rows[r]?

/-- Marks a record as used. -/
def noteUse (l : Ledger) (r : Ref) : Ledger :=
  ⟨l.rows.modify r fun row => { row with binding.used := true }⟩

/-- Whether a binding in the slot of `row` is used. -/
def slotUsed (l : Ledger) (row : Row) : Bool :=
  l.rows.any fun other => other.binding.used && other.sameSlot row

/-- The binding under a reference. -/
def binding? (l : Ledger) (r : Ref) : Option Binding := (l.get? r).map (·.binding)

/-- The binding under a reference, standing for its slot: marked as used if the slot is. -/
def slotBinding? (l : Ledger) (r : Ref) : Option Binding :=
  (l.get? r).map fun row => { row.binding with used := l.slotUsed row }

@[simp] theorem size_push (l : Ledger) (row : Row) : (l.push row).size = l.size + 1 := by
  simp [size, push]

@[simp] theorem size_noteUse (l : Ledger) (r : Ref) : (l.noteUse r).size = l.size := by
  simp [size, noteUse]

@[simp] theorem get?_push_size (l : Ledger) (row : Row) : (l.push row).get? l.size = some row := by
  simp [get?, push, size]

theorem get?_push_of_lt {l : Ledger} {r : Ref} (h : r < l.size) (row : Row) :
    (l.push row).get? r = l.get? r := by
  simp only [size] at h
  simp [get?, push, Array.getElem?_push, Nat.ne_of_lt h]

theorem get?_noteUse (l : Ledger) (r s : Ref) :
    (l.noteUse r).get? s =
      (l.get? s).map fun row =>
        if r = s then { row with binding.used := true } else row := by
  simp only [get?, noteUse, Array.getElem?_modify]
  split <;> simp

end Ledger

end BlockSlots
