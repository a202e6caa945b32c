import BlockSlots.Mark

/-! # Lines

What a single line says: it opens or closes a block, declares or releases names, or is a plain
line. All but plain lines are directives. A directive keeps the white space in front of it, which
the line written for it starts with too.
-/

set_option autoImplicit false

namespace BlockSlots

/-- An item of a list: a name, with a type tag where one is given. -/
structure ListItem where
  name : String
  tag? : Option String
deriving DecidableEq, Repr

/-- The type tag of an item; the empty text if none is given. -/
def ListItem.tag (item : ListItem) : String := item.tag?.getD ""

/-- The reading of a line. -/
inductive Line where
  | enter (indent : String)
  | leave (indent : String)
  | declare (indent : String) (items : List ListItem)
  | release (indent : String) (names : List String)
  | plain
deriving DecidableEq, Repr

/-- A list that cannot be read. -/
structure ListFault where
  /-- The directive whose list it is. -/
  mark : Mark
  /-- The first character that no item starts with; empty if the list is. -/
  symbol : String
deriving DecidableEq, Repr

/-- The text of a fault in a list. -/
def ListFault.message (e : ListFault) : String :=
  "Invalid " ++ e.mark.word ++ " directive (symbol \"" ++ e.symbol ++ "\")"

end BlockSlots
