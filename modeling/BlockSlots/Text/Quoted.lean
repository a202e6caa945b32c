/-! # Quoted text

A text between quotation marks on one line. A quotation mark or a backslash gets a backslash in
front; line feed, carriage return, tab and NUL are written by a letter or digit after a backslash,
and the other control characters of ASCII by their code point in hexadecimal. Every other character
stands for itself.

This is meant for texts in which every character beyond ASCII is visible and stands alone. Of other
texts more is written by code points: what is not printable, as U+0085 or U+200B, and what extends
the character in front of it, as U+0301. Which characters these are is not told here.
-/

set_option autoImplicit false

namespace BlockSlots.Text

/-- A code point in hexadecimal, between braces. -/
def bracedCode (c : Char) : List Char := '\x7b' :: Nat.toDigits 16 c.toNat ++ ['\x7d']

/-- The characters that stand for `c` between quotation marks, where `c` is of ASCII or visible by
itself. -/
def escaped (c : Char) : List Char :=
  if c = '"' ∨ c = '\\' then ['\\', c]
  else if c = '\n' then ['\\', 'n']
  else if c = '\r' then ['\\', 'r']
  else if c = '\t' then ['\\', 't']
  else if c = '\x00' then ['\\', '0']
  else if c.toNat < 0x20 ∨ c.toNat = 0x7f then ['\\', 'u'] ++ bracedCode c
  else [c]

/-- A text between quotation marks, for texts whose characters beyond ASCII are visible and stand
alone. -/
def quoted (text : String) : String :=
  String.ofList ('"' :: text.toList.flatMap escaped ++ ['"'])

example : escaped '\x1b' = ['\\', 'u', '\x7b', '1', 'b', '\x7d'] := by decide

end BlockSlots.Text
