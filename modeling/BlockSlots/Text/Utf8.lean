/-! # Decoding UTF-8

Bytes are read one at a time: either between two characters, or inside one whose first bytes are
known. The first byte fixes how many follow and which range the second one has to lie in; this
excludes overlong forms, surrogates and code points above 10FFFF, so every value reached is a
character. Decoding stops at the first byte that cannot go on, or at an end inside a character.
-/

set_option autoImplicit false

namespace BlockSlots.Text.Utf8

/-- Why bytes are no text. An index counts bytes; those before `index` are whole characters. -/
inductive Fault where
  /-- The `length` bytes from `index` on belong to no character: none starts with them and what
  follows them. -/
  | malformed (length index : Nat)
  /-- The bytes end inside the character that starts at `index`. -/
  | truncated (index : Nat)
deriving DecidableEq, Repr

/-- The text of a fault. -/
def Fault.message : Fault → String
  | malformed length index =>
    "invalid utf-8 sequence of " ++ toString length ++ " bytes from index " ++ toString index
  | truncated index => "incomplete utf-8 byte sequence from index " ++ toString index

/-- A character whose first bytes have been read. -/
structure Pending where
  /-- The index of the first byte. -/
  start : Nat
  /-- The number of bytes read. -/
  seen : Nat
  /-- The bits read, as a number. -/
  value : Nat
  /-- The least value of the next byte. -/
  low : Nat
  /-- The greatest value of the next byte. -/
  high : Nat
  /-- The number of bytes after the next one. -/
  more : Nat
deriving DecidableEq, Repr

/-- The character that byte `b` starts at index `start`, for a character of two to four bytes. -/
def lead? (start b : Nat) : Option Pending :=
  if 0xc2 ≤ b ∧ b ≤ 0xdf then some ⟨start, 1, b - 0xc0, 0x80, 0xbf, 0⟩
  else if b = 0xe0 then some ⟨start, 1, 0, 0xa0, 0xbf, 1⟩
  else if b = 0xed then some ⟨start, 1, 0xd, 0x80, 0x9f, 1⟩
  else if 0xe1 ≤ b ∧ b ≤ 0xef then some ⟨start, 1, b - 0xe0, 0x80, 0xbf, 1⟩
  else if b = 0xf0 then some ⟨start, 1, 0, 0x90, 0xbf, 2⟩
  else if 0xf1 ≤ b ∧ b ≤ 0xf3 then some ⟨start, 1, b - 0xf0, 0x80, 0xbf, 2⟩
  else if b = 0xf4 then some ⟨start, 1, 4, 0x80, 0x8f, 2⟩
  else none

/-- The bits of a character after the further byte `b`. -/
def Pending.extend (p : Pending) (b : Nat) : Nat := p.value * 64 + (b - 0x80)

/-- A character after the further byte `b`, when more bytes follow. -/
def Pending.advance (p : Pending) (b : Nat) : Pending :=
  { p with seen := p.seen + 1, value := p.extend b, low := 0x80, high := 0xbf, more := p.more - 1 }

/-- The characters that the bytes from `index` on spell, inside the character `pending` if there is
one. -/
def decodeFrom (index : Nat) : Option Pending → List UInt8 → Except Fault (List Char)
  | none, [] => .ok []
  | some p, [] => .error (.truncated p.start)
  | none, b :: bs =>
    if b.toNat < 0x80 then (decodeFrom (index + 1) none bs).map (Char.ofNat b.toNat :: ·)
    else match lead? index b.toNat with
      | some p => decodeFrom (index + 1) (some p) bs
      | none => .error (.malformed 1 index)
  | some p, b :: bs =>
    if p.low ≤ b.toNat ∧ b.toNat ≤ p.high then
      if p.more = 0 then
        (decodeFrom (index + 1) none bs).map (Char.ofNat (p.extend b.toNat) :: ·)
      else decodeFrom (index + 1) (some (p.advance b.toNat)) bs
    else .error (.malformed p.seen p.start)

/-- The text that the bytes spell. -/
def decode (bytes : ByteArray) : Except Fault String :=
  (decodeFrom 0 none bytes.data.toList).map String.ofList

end BlockSlots.Text.Utf8
