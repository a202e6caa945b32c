import BlockSlots.Ledger
import BlockSlots.Store.Stacks
import BlockSlots.Store.Tally

/-! # Blocks

A block binds names to slots. Binding a name takes the slot of its type tag that was freed last, or
a new one if none is free; a slot never changes its type. A name that is bound again hides its
older binding until it is released, when the older one becomes visible again. Names and slots are
independent of each other: any name can be bound with any type tag.

* `visible?_bind_self`, `visible?_bind_of_ne`: what a binding makes visible.
* `unbind_eq_error_iff`: releasing a name fails exactly if no binding of it is visible.
-/

set_option autoImplicit false

namespace BlockSlots

/-- A binding that has a slot: its record, its type tag and the slot. -/
structure Holding where
  ref : Ref
  tag : String
  slot : Slot
deriving DecidableEq, Repr

/-- A name was to be released that no binding makes visible. -/
structure Unbound where
  name : String
deriving DecidableEq, Repr

/-- The text of the failure. -/
def Unbound.message (e : Unbound) : String := e.name ++ " is free"

/-- The state of a block. -/
structure Block where
  /-- The number of the block in its run. -/
  id : Nat
  /-- The bindings under each name that are not released, the visible one on top. -/
  live : Stacks Holding := {}
  /-- The released bindings of each type tag whose slots are free, the next to be taken on top. -/
  freed : Stacks Holding := {}
  /-- How many slots each type tag has. -/
  tags : Tally := {}
deriving DecidableEq, Repr

namespace Block

/-- How many slots the block has. -/
def size (b : Block) : Nat := b.tags.total

/-- How many type tags the block has seen. -/
def kindCount (b : Block) : Nat := b.tags.size

/-- A slot that the block does not have yet, for a type tag. -/
def freshSlot (b : Block) (tag : String) : Slot where
  id := b.size
  kind := b.tags.number tag
  index := b.tags.count tag

/-- The slot that the next binding with a type tag gets. -/
def nextSlot (b : Block) (tag : String) : Slot :=
  match b.freed.top? tag with
  | some h => h.slot
  | none => b.freshSlot tag

/-- Makes record `ref` the visible binding of a name, in the next slot of its type tag. -/
def hold (b : Block) (ref : Ref) (name tag : String) : Block :=
  let live := b.live.push name ⟨ref, tag, b.nextSlot tag⟩
  match b.freed.pop? tag with
  | some (_, freed) => { b with live, freed }
  | none => { b with live, tags := b.tags.add tag }

/-- Binds a name, in a new record of the ledger. -/
def bind (b : Block) (ledger : Ledger) (name tag : String) : Ledger × Block :=
  (ledger.push ⟨⟨name, tag, b.nextSlot tag, false⟩, b.id⟩, b.hold ledger.size name tag)

/-- Releases the visible binding of a name and frees its slot. -/
def unbind (b : Block) (name : String) : Except Unbound (Ref × Block) :=
  match b.live.pop? name with
  | some (h, live) => .ok (h.ref, { b with live, freed := b.freed.push h.tag h })
  | none => .error ⟨name⟩

/-- The visible binding of a name. -/
def visible? (b : Block) (name : String) : Option Ref := (b.live.top? name).map (·.ref)

/-- One binding for each slot: first those not released, by name and in the order of declaration,
then the last ones of the free slots, by type tag and in the order of release. -/
def refs (b : Block) : List Ref := (b.live.toList ++ b.freed.toList).map (·.ref)

/-! ## What a name stands for -/

theorem live_hold (b : Block) (ref : Ref) (name tag : String) :
    (b.hold ref name tag).live = b.live.push name ⟨ref, tag, b.nextSlot tag⟩ := by
  unfold hold
  dsimp only
  split <;> rfl

theorem visible?_bind_self (b : Block) (ledger : Ledger) (name tag : String) :
    (b.bind ledger name tag).2.visible? name = some ledger.size := by
  simp [bind, visible?, live_hold, Stacks.top?]

theorem visible?_bind_of_ne {name other : String} (h : other ≠ name) (b : Block) (ledger : Ledger)
    (tag : String) : (b.bind ledger name tag).2.visible? other = b.visible? other := by
  simp [bind, visible?, live_hold, Stacks.top?, Stacks.stack_push_of_ne h]

theorem unbind_eq_error_iff {b : Block} {name : String} {e : Unbound} :
    b.unbind name = .error e ↔ b.visible? name = none ∧ e = ⟨name⟩ := by
  have hpop : b.live.pop? name = none ↔ b.live.stack name = [] := Stacks.pop?_eq_none_iff
  unfold unbind
  split
  · next h _ hsome =>
    have hne : b.live.stack name ≠ [] := fun he => by rw [hpop.2 he] at hsome; cases hsome
    simp [visible?, Stacks.top?, hne]
  · next hnone =>
    simp [visible?, Stacks.top?, hpop.1 hnone, eq_comm]

end Block

end BlockSlots
