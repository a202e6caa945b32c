import BlockSlots.Block

/-! # Nested blocks

The open blocks of a run stand on a stack. The innermost one is active; the others wait until the
blocks inside them are closed, and do not change meanwhile. Blocks are numbered in the order in
which they are opened, and no number is given twice.

* `pop?_push`: closing the block just opened brings back the blocks around it.
* `current?_setCurrent`: what the innermost block is after a change of it.
-/

set_option autoImplicit false

namespace BlockSlots

/-- An open block, with where it was opened. -/
structure OpenBlock where
  block : Block
  /-- The place in the script of the entry that opens the block. -/
  entry : Nat
  /-- The number of the line that opens the block, counted from zero. -/
  line : Nat
deriving DecidableEq, Repr

/-- The open blocks of a run. -/
structure Nest where
  /-- The open blocks, innermost first. -/
  inner : List OpenBlock := []
  /-- How many blocks were opened so far. -/
  count : Nat := 0
deriving DecidableEq, Repr

namespace Nest

/-- Opens a block. Its number is that of the blocks opened before it. -/
def push (n : Nest) (entry line : Nat) : Nest where
  inner := ⟨{ id := n.count }, entry, line⟩ :: n.inner
  count := n.count + 1

/-- Closes the innermost block. -/
def pop? (n : Nest) : Option (OpenBlock × Nest) :=
  match n.inner with
  | [] => none
  | o :: inner => some (o, { n with inner })

/-- The innermost block. -/
def current? (n : Nest) : Option Block := n.inner.head?.map (·.block)

/-- Puts another state of the innermost block in its place. -/
def setCurrent (n : Nest) (block : Block) : Nest :=
  { n with inner := n.inner.modifyHead fun o => { o with block } }

/-- The outermost block. -/
def outermost? (n : Nest) : Option OpenBlock := n.inner.getLast?

/-- How many blocks are open. -/
def depth (n : Nest) : Nat := n.inner.length

theorem pop?_push (n : Nest) (entry line : Nat) :
    (n.push entry line).pop? =
      some (⟨{ id := n.count }, entry, line⟩, { n with count := n.count + 1 }) := rfl

theorem current?_setCurrent {n : Nest} (h : n.inner ≠ []) (block : Block) :
    (n.setCurrent block).current? = some block := by
  obtain ⟨o, inner, ho⟩ := List.exists_cons_of_ne_nil h
  simp [setCurrent, current?, ho]

end Nest

end BlockSlots
