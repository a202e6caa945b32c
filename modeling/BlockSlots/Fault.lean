import BlockSlots.Block
import BlockSlots.Line.Basic
import BlockSlots.Text.Utf8

/-! # Faults

Why a document is refused: the input as a whole is not what it should be, or one of its lines has a
fault. A fault of a line comes with the number and the text of the line; lines are counted from
zero, and the text is shown as it stands.
-/

set_option autoImplicit false

namespace BlockSlots

/-- How blocks and directives do not fit together. -/
inductive Imbalance where
  /-- No block is open that could be closed. -/
  | unopened
  /-- A declaration outside of all blocks. -/
  | declareOutside
  /-- A release outside of all blocks. -/
  | releaseOutside
  /-- A block is never closed. -/
  | unclosed
  /-- A reason of the caller's. -/
  | other (reason : String)
deriving DecidableEq, Repr

/-- The text of an imbalance. -/
def Imbalance.reason : Imbalance → String
  | unopened => "end without matching begin"
  | declareOutside => "def outside of any block"
  | releaseOutside => "undef outside of any block"
  | unclosed => "begin without matching end"
  | other reason => reason

/-- What is wrong with a line. -/
inductive Cause where
  /-- The list of a directive cannot be read. -/
  | list (fault : ListFault)
  /-- A name is released that is not bound. -/
  | unbound (fault : Unbound)
  /-- Blocks and directives do not fit together. -/
  | unbalanced (why : Imbalance)
  /-- A name is declared without a type where types are required. -/
  | untyped (name : String)
deriving DecidableEq, Repr

/-- The text of a cause. -/
def Cause.message : Cause → String
  | list fault => fault.message
  | unbound fault => fault.message
  | unbalanced why => "Unbalanced scope: " ++ why.reason
  | untyped name => "Missing type for " ++ name

/-- A fault of a line. -/
structure LineFault where
  cause : Cause
  /-- The number of the line, counted from zero. -/
  line : Nat
  /-- The text of the line. -/
  text : String
deriving DecidableEq, Repr

/-- The text of a fault of a line. -/
def LineFault.message (e : LineFault) : String :=
  e.cause.message ++ " at line " ++ toString e.line ++ " \"" ++ e.text ++ "\""

/-- What is wrong with the input as a whole. -/
inductive InputFault where
  /-- No language has this name. -/
  | language (name : String)
  /-- The bytes are no text. -/
  | encoding (fault : Text.Utf8.Fault)
  /-- A reason of the caller's. -/
  | other (reason : String)
deriving DecidableEq, Repr

/-- The reason of a fault of the input. -/
def InputFault.reason : InputFault → String
  | language name => "Invalid language \"" ++ name ++ "\""
  | encoding fault => "Invalid text: " ++ fault.message
  | other reason => reason

/-- Why a document is refused. -/
inductive Failure where
  | input (fault : InputFault)
  | line (fault : LineFault)
deriving DecidableEq, Repr

/-- The text of a failure. -/
def Failure.message : Failure → String
  | input fault => "Input type error: " ++ fault.reason
  | line fault => fault.message

end BlockSlots
