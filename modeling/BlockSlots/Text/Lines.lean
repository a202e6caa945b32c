/-! # Lines

A text is cut at every line ending: carriage return with line feed, carriage return alone, line
feed alone. The endings are dropped, and a text without one is a single line, also when it is
empty.
-/

set_option autoImplicit false

namespace BlockSlots.Text

/-- Puts a character in front of the first line. -/
def extendFirst (c : Char) : List (List Char) → List (List Char)
  | [] => [[c]]
  | line :: lines => (c :: line) :: lines

/-- The lines of a text given by its characters. -/
def cutLines : List Char → List (List Char)
  | [] => [[]]
  | '\r' :: '\n' :: cs => [] :: cutLines cs
  | c :: cs => if c = '\r' ∨ c = '\n' then [] :: cutLines cs else extendFirst c (cutLines cs)

/-- Every text has a line. -/
theorem cutLines_ne_nil (cs : List Char) : cutLines cs ≠ [] := by
  unfold cutLines
  split
  · exact List.cons_ne_nil _ _
  · exact List.cons_ne_nil _ _
  · split
    · exact List.cons_ne_nil _ _
    · unfold extendFirst
      split <;> exact List.cons_ne_nil _ _

/-- The lines of a text. -/
def lines (text : String) : List String := (cutLines text.toList).map String.ofList

example : cutLines "a\r\nb\rc\n".toList = [['a'], ['b'], ['c'], []] := by decide

end BlockSlots.Text
