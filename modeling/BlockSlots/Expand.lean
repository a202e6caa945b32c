import BlockSlots.Language
import BlockSlots.Plan

/-! # Expanding a document

A document is expanded for a target: a built-in language or a dialect of the caller's. The target
is found before the document is read, and bytes are decoded before the target is looked for.
-/

set_option autoImplicit false

namespace BlockSlots

/-- What text is written for. -/
inductive Target where
  /-- A built-in language. -/
  | named (name : String)
  /-- A dialect of the caller's. -/
  | custom (dialect : Dialect)

/-- The dialect of a target. -/
def Target.dialect : Target → Except InputFault Dialect
  | named name =>
    match Language.ofName? name with
    | some language => .ok language.dialect
    | none => .error (.language name)
  | custom dialect => .ok dialect

/-- Expands a document with a dialect. -/
def expandWith (settings : Settings) (g : Dialect) (text : String) : Except LineFault String :=
  (Plan.ofText settings text).map (·.written g settings.separator)

/-- Expands a document for a target. -/
def expand (settings : Settings) (target : Target) (text : String) : Except Failure String :=
  match target.dialect with
  | .error fault => .error (.input fault)
  | .ok g => (expandWith settings g text).mapError .line

/-- Expands a document given by its bytes in UTF-8. -/
def expandBytes (settings : Settings) (target : Target) (bytes : ByteArray) :
    Except Failure String :=
  match Text.Utf8.decode bytes with
  | .error fault => .error (.input (.encoding fault))
  | .ok text => expand settings target text

/-- The version of the library. -/
def version : String := "0.0.1"

end BlockSlots
