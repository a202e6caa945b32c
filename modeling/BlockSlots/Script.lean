import BlockSlots.Ledger
import BlockSlots.Mark
import BlockSlots.Store.Table

/-! # Scripts

What is known of a document before text is written for it: an entry for each line, in order.
An entry refers to bindings by their records in the ledger. The entry that opens a block is filled
in when the block is closed, for only then are its slots known.
-/

set_option autoImplicit false

namespace BlockSlots

/-- The bindings that the names of a plain line stand for, in the order of their first mention. -/
abbrev Uses := Table Ref

/-- What text is to be written for. -/
inductive Content where
  /-- A directive, with the bindings it declares or releases or whose slots its block has. -/
  | marked (mark : Mark) (refs : List Ref)
  /-- A plain line, with the bindings that some of its names stand for. -/
  | plain (line : String) (uses : Uses)
deriving DecidableEq, Repr

/-- The record of a line. -/
structure Entry where
  /-- The white space in front of the text. -/
  indent : String
  content : Content
deriving DecidableEq, Repr

/-- The records of the lines of a document. -/
structure Script where
  entries : Array Entry := #[]
deriving DecidableEq, Repr

/-- The binding under a reference, as a directive shows it: at the ends of a block it stands for
its slot, and is used if the slot is. -/
def Ledger.shown? (ledger : Ledger) (mark : Mark) (r : Ref) : Option Binding :=
  match mark with
  | .enter | .leave => ledger.slotBinding? r
  | .declare | .release => ledger.binding? r

/-- Whether a directive keeps a binding where unused ones are hidden: at the ends of a block it does
if the slot is used, elsewhere if the binding itself is. -/
def Ledger.keeps (ledger : Ledger) (mark : Mark) (r : Ref) : Bool :=
  match mark with
  | .enter | .leave => (ledger.get? r).any ledger.slotUsed
  | .declare | .release => (ledger.binding? r).any (·.used)

namespace Entry

/-- Fills in the bindings of an entry that opens a block; another entry stays as it is. -/
def fill (refs : List Ref) (e : Entry) : Entry :=
  match e.content with
  | .marked .enter _ => { e with content := .marked .enter refs }
  | _ => e

/-- Drops the bindings that are not kept where unused ones are hidden. -/
def keepUsed (ledger : Ledger) (e : Entry) : Entry :=
  match e.content with
  | .marked mark refs => { e with content := .marked mark (refs.filter (ledger.keeps mark)) }
  | .plain .. => e

end Entry

namespace Script

/-- The number of entries, which is the place of the next one. -/
def size (s : Script) : Nat := s.entries.size

/-- Adds an entry. -/
def push (s : Script) (e : Entry) : Script := ⟨s.entries.push e⟩

/-- The entry at a place. -/
def get? (s : Script) (i : Nat) : Option Entry := s.entries[i]?

/-- Fills in the bindings of the entry at a place, if it opens a block. -/
def fill (s : Script) (i : Nat) (refs : List Ref) : Script :=
  ⟨s.entries.modify i (Entry.fill refs)⟩

/-- Drops from every entry the bindings that are not kept where unused ones are hidden. -/
def keepUsed (s : Script) (ledger : Ledger) : Script := ⟨s.entries.map (Entry.keepUsed ledger)⟩

@[simp] theorem size_push (s : Script) (e : Entry) : (s.push e).size = s.size + 1 := by
  simp [size, push]

@[simp] theorem size_fill (s : Script) (i : Nat) (refs : List Ref) :
    (s.fill i refs).size = s.size := by
  simp [size, fill]

@[simp] theorem size_keepUsed (s : Script) (ledger : Ledger) :
    (s.keepUsed ledger).size = s.size := by
  simp [size, keepUsed]

end Script

end BlockSlots
