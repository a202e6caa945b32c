import BlockSlots.Text.CharSet

/-! # White space

Blanks are the characters with the Unicode property `White_Space`: 25 code points. They stand
around a directive and between the items of its list; the text before and after them is kept
apart by `takeWhile isBlank` and `dropWhile isBlank`, and `trim` takes them off both ends.
-/

set_option autoImplicit false

namespace BlockSlots.Text

/-- The characters with the property `White_Space`. -/
def blanks : CharSet where
  ranges := [(0x9, 0xd), (0x20, 0x20), (0x85, 0x85), (0xa0, 0xa0), (0x1680, 0x1680),
    (0x2000, 0x200a), (0x2028, 0x2029), (0x202f, 0x202f), (0x205f, 0x205f), (0x3000, 0x3000)]

example : (blanks.ranges.map fun r => r.2 + 1 - r.1).sum = 25 := by decide

/-- Whether `c` is white space. -/
def isBlank (c : Char) : Bool := blanks.contains c

theorem isBlank_of_isWhitespace {c : Char} (h : c.isWhitespace = true) : isBlank c = true := by
  simp only [Char.isWhitespace, Bool.or_eq_true, decide_eq_true_eq] at h
  rcases h with ((rfl | rfl) | rfl) | rfl <;> decide

/-- Takes the white space off both ends. -/
def trim (cs : List Char) : List Char :=
  ((cs.dropWhile isBlank).reverse.dropWhile isBlank).reverse

end BlockSlots.Text
