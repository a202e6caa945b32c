/-! # Sets of characters

A property of characters is given by closed ranges of code points. The tables of white space
(`Text/Blank`) and of word characters (`Text/WordChar`) are values of this type.
-/

set_option autoImplicit false

namespace BlockSlots

/-- A set of characters. -/
structure CharSet where
  /-- Closed ranges of code points: the first and the last member of each. -/
  ranges : List (Nat × Nat)

namespace CharSet

/-- Whether `c` lies in one of the ranges. -/
def contains (s : CharSet) (c : Char) : Bool :=
  s.ranges.any fun r => r.1 ≤ c.toNat && c.toNat ≤ r.2

theorem contains_iff {s : CharSet} {c : Char} :
    s.contains c = true ↔ ∃ r ∈ s.ranges, r.1 ≤ c.toNat ∧ c.toNat ≤ r.2 := by
  simp [contains, List.any_eq_true]

end CharSet

end BlockSlots
