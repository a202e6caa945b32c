import BlockSlots.Line.Items
import BlockSlots.Text.WordChar

/-! # Reading a line

A directive line is white space, a tilde, white space and the word of a mark, which must end
there. The words that open and close a block stand alone on their line. The other two are followed
by a list, taken without the white space around it; a line feed inside it makes the line plain, as
does everything else that is no directive.
-/

set_option autoImplicit false

namespace BlockSlots.Line

open Text

/-- Reads what follows the word of `mark`. -/
def ofTail (mark : Mark) (indent : String) (tail : List Char) : Except ListFault Line :=
  match mark with
  | .enter => .ok (if tail.all isBlank then .enter indent else .plain)
  | .leave => .ok (if tail.all isBlank then .leave indent else .plain)
  | .declare =>
    if '\n' ∈ trim tail then .ok .plain
    else (readList .declare true (trim tail)).map (.declare indent)
  | .release =>
    if '\n' ∈ trim tail then .ok .plain
    else (readList .release false (trim tail)).map fun items => .release indent (items.map (·.name))

/-- Reads a line given by its characters. -/
def ofChars (line : List Char) : Except ListFault Line :=
  match line.dropWhile isBlank with
  | '~' :: rest =>
    match Mark.split? (rest.dropWhile isBlank) with
    | some (mark, tail) =>
      if endsWord tail then ofTail mark (String.ofList (line.takeWhile isBlank)) tail
      else .ok .plain
    | none => .ok .plain
  | _ => .ok .plain

/-- Reads a line. -/
def ofString (line : String) : Except ListFault Line := ofChars line.toList

end BlockSlots.Line
