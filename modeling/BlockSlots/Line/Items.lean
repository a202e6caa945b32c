import BlockSlots.Line.Basic
import BlockSlots.Text.Blank
import BlockSlots.Text.Name

/-! # Items of a list

The text after a declaring or releasing word is a list of items. An item is a name and the white
space after it; where types are allowed, a colon, a type tag and further white space can follow,
with white space on either side of the colon. The list is read from left to right, an item at a
time, and is refused at the first character that starts none: a colon without a tag, for example.
-/

set_option autoImplicit false

namespace BlockSlots

open Text

/-- Splits a name and the white space after it off the start of a text. -/
def splitWord? (cs : List Char) : Option (List Char × List Char) :=
  (splitName? cs).map fun (name, rest) => (name, rest.dropWhile isBlank)

/-- Splits a colon, a type tag and the white space after each off the start of a text. -/
def splitTag? : List Char → Option (List Char × List Char)
  | ':' :: cs => splitWord? (cs.dropWhile isBlank)
  | _ => none

/-- Splits an item off the start of a text, with its type tag if `typed` allows one. -/
def splitItem? (typed : Bool) (cs : List Char) : Option (ListItem × List Char) :=
  (splitWord? cs).map fun (name, rest) =>
    match if typed then splitTag? rest else none with
    | some (tag, rest) => (⟨String.ofList name, some (String.ofList tag)⟩, rest)
    | none => (⟨String.ofList name, none⟩, rest)

theorem length_lt_of_splitWord? {cs name rest : List Char}
    (h : splitWord? cs = some (name, rest)) : rest.length < cs.length := by
  obtain ⟨⟨name', rest'⟩, h', he⟩ := Option.map_eq_some_iff.1 h
  cases he
  have h₁ := length_lt_of_splitName? h'
  have h₂ := (List.dropWhile_suffix isBlank (l := rest')).length_le
  omega

theorem length_lt_of_splitTag? {cs tag rest : List Char}
    (h : splitTag? cs = some (tag, rest)) : rest.length < cs.length := by
  unfold splitTag? at h
  split at h
  · next cs' =>
    have h₁ := length_lt_of_splitWord? h
    have h₂ := (List.dropWhile_suffix isBlank (l := cs')).length_le
    simp only [List.length_cons]
    omega
  · cases h

theorem length_lt_of_splitItem? {typed : Bool} {cs rest : List Char} {item : ListItem}
    (h : splitItem? typed cs = some (item, rest)) : rest.length < cs.length := by
  obtain ⟨⟨name, rest'⟩, h', he⟩ := Option.map_eq_some_iff.1 h
  have h₁ := length_lt_of_splitWord? h'
  dsimp only at he
  split at he
  · next tag rest'' htag =>
    cases he
    have h₂ : rest.length < rest'.length := by
      cases typed
      · cases htag
      · exact length_lt_of_splitTag? htag
    omega
  · cases he
    exact h₁

/-- Reads a text as a sequence of items. A failure is the first character that starts none. -/
def readItems (typed : Bool) (cs : List Char) : Except Char (List ListItem) :=
  match cs with
  | [] => .ok []
  | c :: rest =>
    match h : splitItem? typed (c :: rest) with
    | none => .error c
    | some (item, rest') =>
      have := length_lt_of_splitItem? h
      (readItems typed rest').map (item :: ·)
termination_by cs.length
decreasing_by assumption

/-- Reads the list of a directive. It must have an item, and white space must not stand in front. -/
def readList (mark : Mark) (typed : Bool) (cs : List Char) : Except ListFault (List ListItem) :=
  if cs.isEmpty then .error ⟨mark, ""⟩
  else (readItems typed cs).mapError fun c => ⟨mark, String.singleton c⟩

end BlockSlots
