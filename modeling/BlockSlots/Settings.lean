/-! # Settings -/

set_option autoImplicit false

namespace BlockSlots

/-- What can be chosen for a run. -/
structure Settings where
  /-- What stands between two lines of the result. -/
  separator : String := "\n"
  /-- Whether a declaration without a type is refused. -/
  demandTypes : Bool := false
  /-- Whether bindings that no plain line refers to are hidden from the dialect. -/
  hideUnused : Bool := true
deriving DecidableEq, Repr

end BlockSlots
