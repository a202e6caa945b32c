import BlockSlots.Language.CellArrays

/-! # Built-in languages

The target languages that can be chosen by name. Languages that declare storage alike share a
dialect, and a name is found whatever the case of its letters.
-/

set_option autoImplicit false

namespace BlockSlots

/-- A way to declare the slots of a block. -/
inductive Language where
  /-- A variable for each slot, without a type. -/
  | untyped
  /-- A variable for each slot, with the type in front. -/
  | typed
  /-- No declarations. -/
  | dynamic
  /-- A variable for each slot, with the type after a colon where there is one. -/
  | annotated
  /-- A cell of an array on the heap for each slot. -/
  | allocated
deriving DecidableEq, Repr

namespace Language

/-- Every way to declare slots. -/
def all : List Language := [untyped, typed, dynamic, annotated, allocated]

/-- The names of the languages that declare slots in this way. -/
def names : Language → List String
  | untyped => ["js", "javascript", "ecmascript", "jscript"]
  | typed => ["c", "h", "c++", "cpp", "cc", "cxx", "hpp", "java", "c#", "cs"]
  | dynamic => ["python", "py"]
  | annotated => ["actionscript", "typescript"]
  | allocated => ["c-heap"]

/-- The declaration of a slot as a variable without a type. -/
def untypedVar (b : Binding) : String := "var " ++ slotName b ++ ";"

/-- The declaration of a slot as a variable, with the type in front. -/
def typedVar (b : Binding) : String := b.tag ++ " " ++ slotName b ++ ";"

/-- The declaration of a slot as a variable, with the type after a colon where there is one. -/
def annotatedVar (b : Binding) : String :=
  if b.tag.isEmpty then untypedVar b else "var " ++ slotName b ++ ":" ++ b.tag ++ ";"

/-- The dialect of a language. -/
def dialect : Language → Dialect
  | untyped => { enter := fun bindings => spaced bindings untypedVar }
  | typed => { enter := fun bindings => spaced bindings typedVar }
  | dynamic => {}
  | annotated => { enter := fun bindings => spaced bindings annotatedVar }
  | allocated => CellArray.dialect

/-- The name of every language. -/
def allNames : List String := all.flatMap names

/-- A name with its capital letters, as far as they are of ASCII, made small. -/
def lowered (name : String) : String := String.ofList (name.toList.map Char.toLower)

/-- The language of a name, whatever the case of its letters. -/
def ofName? (name : String) : Option Language :=
  all.find? fun language => language.names.contains (lowered name)

example : ofName? "C-Heap" = some allocated := by decide

end Language

end BlockSlots
