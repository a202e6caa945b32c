/-! # Names

A name is a letter, an underscore or a dollar sign, followed by any number of these and of digits.
Letters and digits are those of ASCII. A line is read as a sequence of pieces: the names in it,
each as long as it can be, and the single characters between them. `names` lists the first kind
and `substitute` replaces some of them; both go through `pieces`, so they see the same names.

* `chars_pieces`: the pieces of a text spell the text.
* `substitute_none`: a substitution that replaces no name leaves the text alone.
-/

set_option autoImplicit false

namespace BlockSlots.Text

/-- Whether a name can start with `c`. -/
def isNameStart (c : Char) : Bool := c.isAlpha || c == '_' || c == '$'

/-- Whether `c` can stand in a name after its first character. -/
def isNamePart (c : Char) : Bool := isNameStart c || c.isDigit

/-- Splits off the name at the start of a text, as long as it can be. -/
def splitName? : List Char → Option (List Char × List Char)
  | [] => none
  | c :: cs =>
    if isNameStart c then some (c :: cs.takeWhile isNamePart, cs.dropWhile isNamePart) else none

theorem append_of_splitName? {cs name rest : List Char} (h : splitName? cs = some (name, rest)) :
    name ++ rest = cs := by
  cases cs with
  | nil => cases h
  | cons c cs =>
    simp only [splitName?] at h
    split at h <;> cases h
    simp

theorem ne_nil_of_splitName? {cs name rest : List Char} (h : splitName? cs = some (name, rest)) :
    name ≠ [] := by
  cases cs with
  | nil => cases h
  | cons c cs =>
    simp only [splitName?] at h
    split at h <;> cases h
    simp

theorem length_lt_of_splitName? {cs name rest : List Char}
    (h : splitName? cs = some (name, rest)) : rest.length < cs.length := by
  have hpos := List.length_pos_iff.2 (ne_nil_of_splitName? h)
  rw [← append_of_splitName? h, List.length_append]
  omega

/-! ## Pieces of a line -/

/-- A part of a line: a name, or a character that belongs to none. -/
inductive Piece where
  | name (text : String)
  | other (c : Char)
deriving DecidableEq, Repr

namespace Piece

/-- The characters of a piece. -/
def chars : Piece → List Char
  | name text => text.toList
  | other c => [c]

/-- The text of a name. -/
def name? : Piece → Option String
  | name text => some text
  | other _ => none

/-- The characters of a piece in which the names that `f` knows are replaced. -/
def replaced (f : String → Option String) : Piece → List Char
  | name text => ((f text).getD text).toList
  | other c => [c]

end Piece

/-- The pieces of a text, in order. -/
def pieces (cs : List Char) : List Piece :=
  match h : splitName? cs with
  | some (name, rest) =>
    have := length_lt_of_splitName? h
    .name (String.ofList name) :: pieces rest
  | none =>
    match cs with
    | [] => []
    | c :: rest => .other c :: pieces rest
termination_by cs.length

theorem chars_pieces (cs : List Char) : (pieces cs).flatMap Piece.chars = cs := by
  fun_induction pieces cs with
  | case1 cs name rest h _ ih =>
    simp [Piece.chars, ih, append_of_splitName? h]
  | case2 => rfl
  | case3 c cs h ih => simp [Piece.chars, ih]

/-- The names in a line, from left to right. -/
def names (line : String) : List String := (pieces line.toList).filterMap Piece.name?

/-- Replaces each name that `f` knows by what `f` gives for it. The new text is not read again. -/
def substitute (f : String → Option String) (line : String) : String :=
  String.ofList ((pieces line.toList).flatMap (Piece.replaced f))

theorem substitute_none (line : String) : substitute (fun _ => none) line = line := by
  have h : Piece.replaced (fun _ => none) = Piece.chars := by
    funext p; cases p <;> rfl
  rw [substitute, h, chars_pieces, String.ofList_toList]

end BlockSlots.Text
