import BlockSlots.Dialect

/-! # Storage in arrays on the heap

For each type tag of a block one array is allocated where the block is opened and freed where it is
closed; a slot is a cell of the array of its type tag. An array reaches as far as the last slot that
is listed, also when slots before it are not, for a slot keeps its place in the array.
-/

set_option autoImplicit false

namespace BlockSlots

/-- The array of a type tag. -/
structure CellArray where
  /-- The number of the type tag in its block. -/
  kind : Nat
  tag : String
  /-- The number of cells. -/
  size : Nat
deriving DecidableEq, Repr

namespace CellArray

/-- The name of the array of a type tag. -/
def arrayName (kind : Nat) : String := "v" ++ toString kind

/-- The array of the binding's type tag, just large enough for the binding. -/
def ofBinding (b : Binding) : CellArray := ⟨b.slot.kind, b.tag, b.slot.index + 1⟩

/-- Makes room for a binding, in arrays ordered by the numbers of their type tags. -/
def insert (b : Binding) : List CellArray → List CellArray
  | [] => [ofBinding b]
  | a :: rest =>
    if b.slot.kind < a.kind then ofBinding b :: a :: rest
    else if b.slot.kind = a.kind then { a with size := max a.size (b.slot.index + 1) } :: rest
    else a :: insert b rest

/-- The arrays for a list of bindings, ordered by the numbers of their type tags. -/
def ofBindings (bindings : List Binding) : List CellArray :=
  bindings.foldl (fun arrays b => insert b arrays) []

/-- The allocation of an array. -/
def allocation (a : CellArray) : String :=
  a.tag ++ "* " ++ arrayName a.kind ++ " = malloc(" ++ toString a.size ++ " * sizeof(" ++ a.tag ++
    "));"

/-- The check that an array was allocated. -/
def check (a : CellArray) : String := "if(" ++ arrayName a.kind ++ " == NULL) exit(1);"

/-- The release of an array. -/
def free (a : CellArray) : String := "free(" ++ arrayName a.kind ++ ");"

/-- The cell of a binding. -/
def cell (b : Binding) : String :=
  arrayName b.slot.kind ++ "[" ++ toString b.slot.index ++ "]"

/-- Allocates all arrays, then checks them all; frees them in the same order. -/
def dialect : Dialect where
  enter bindings :=
    let arrays := ofBindings bindings
    " ".intercalate (arrays.map allocation ++ arrays.map check)
  leave bindings := " ".intercalate ((ofBindings bindings).map free)
  use := cell

end CellArray

end BlockSlots
