import BlockSlots.Ledger
import BlockSlots.Mark

/-! # Dialects

A dialect writes the text that a target language needs: at the ends of a block for the block's
slots, at a declaration or release for the bindings concerned, and in place of a name for the
binding that the name stands for. What a dialect does not say keeps its default: nothing on the
line of a directive, and the letter `i` with the number of the slot in place of a name.
-/

set_option autoImplicit false

namespace BlockSlots

/-- A slot written as the letter `i` with its number. -/
def slotName (b : Binding) : String := "i" ++ toString b.slot.id

/-- How text is written for a target language. -/
structure Dialect where
  /-- The text of a line that opens a block, from the block's slots. -/
  enter : List Binding → String := fun _ => ""
  /-- The text of a line that closes a block, from the block's slots. -/
  leave : List Binding → String := fun _ => ""
  /-- The text of a declaration. -/
  declare : List Binding → String := fun _ => ""
  /-- The text of a release. -/
  release : List Binding → String := fun _ => ""
  /-- The text in place of a name on a plain line. -/
  use : Binding → String := slotName

/-- The text on the line of a directive. -/
def Dialect.text (g : Dialect) : Mark → List Binding → String
  | .enter => g.enter
  | .leave => g.leave
  | .declare => g.declare
  | .release => g.release

/-- One text for each binding, with a space between them. -/
def spaced (bindings : List Binding) (f : Binding → String) : String :=
  " ".intercalate (bindings.map f)

end BlockSlots
