/-! # Marks

A directive is introduced by a tilde and one of four words. Blocks are opened and closed by the
first two, names are declared and released by the last two.
-/

set_option autoImplicit false

namespace BlockSlots

/-- What a directive line does. -/
inductive Mark where
  | enter
  | leave
  | declare
  | release
deriving DecidableEq, Repr

namespace Mark

/-- The word after the tilde. -/
def word : Mark → String
  | enter => "begin"
  | leave => "end"
  | declare => "def"
  | release => "undef"

/-- Every mark. -/
def all : List Mark := [enter, leave, declare, release]

/-- Splits the word of a mark off the start of a text. -/
def split? (cs : List Char) : Option (Mark × List Char) :=
  all.findSome? fun mark => (mark.word.toList.isPrefixOf? cs).map (mark, ·)

/-- No word starts with another one, so a text starts with the word of at most one mark. -/
theorem eq_of_isPrefixOf {m n : Mark} (h : m.word.toList.isPrefixOf n.word.toList = true) :
    m = n := by
  revert h; cases m <;> cases n <;> decide

end Mark

end BlockSlots
