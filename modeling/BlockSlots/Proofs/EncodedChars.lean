import BlockSlots.Text.Utf8
import Mathlib.Algebra.Group.Nat.Defs

/-!
# The bytes of a character

What a decoder knows of a character whose first bytes it has read is which code points the character
can still have (`Pending.Covers`). They are those of the characters whose bytes start with the bytes
read (`Pending.Reads`), so a byte is refused only where no character goes on like that.

* `utf8EncodeChar_cases`: the bytes of a character, by the size of its code point.
* `reads_of_lead?`, `not_isPrefix_of_lead?`: the first byte of a character.
* `Pending.Reads.advance`, `Pending.Reads.last`, `Pending.Reads.refuse`: a further byte.
* `Pending.Reads.exists_char`: some character goes on.
-/

set_option autoImplicit false

namespace BlockSlots.Text.Utf8

open String (utf8EncodeChar)

/-- The last `k` bytes of a character that has more than `k`, from its code point. -/
def further : Nat → Nat → List UInt8
  | 0, _ => []
  | k + 1, v => UInt8.ofNat (0x80 + v / 64 ^ k % 64) :: further k v

/-- `b` is the first byte of a character with code point `v`, and `k` bytes follow it. -/
def Leads (v b k : Nat) : Prop :=
  (0x80 ≤ v ∧ v < 0x800 ∧ b = 0xc0 + v / 64 ∧ k = 1) ∨
    (0x800 ≤ v ∧ v < 0x10000 ∧ b = 0xe0 + v / 64 / 64 ∧ k = 2) ∨
    (0x10000 ≤ v ∧ v < 0x110000 ∧ b = 0xf0 + v / 64 / 64 / 64 ∧ k = 3)

/-- The code points that a character whose first bytes have been read can have. -/
structure Pending.Covers (p : Pending) (v : Nat) : Prop where
  value : v / 64 ^ p.more / 64 = p.value
  low : p.low ≤ 0x80 + v / 64 ^ p.more % 64
  high : 0x80 + v / 64 ^ p.more % 64 ≤ p.high

/-- `p` is what is known of a character after its first bytes `pre`. -/
structure Pending.Reads (p : Pending) (pre : List UInt8) : Prop where
  ne_nil : pre ≠ []
  seen : pre.length = p.seen
  range : 0x80 ≤ p.low ∧ p.low ≤ p.high ∧ p.high ≤ 0xbf
  valid : ∀ v, p.Covers v → v.isValidChar
  /-- A character with such a code point goes on after these bytes, -/
  spells : ∀ c : Char, p.Covers c.toNat → utf8EncodeChar c = pre ++ further (p.more + 1) c.toNat
  /-- and no other one starts with them. -/
  covers : ∀ c : Char, pre <+: utf8EncodeChar c → p.Covers c.toNat

theorem Pending.covers_iff {p : Pending} {v : Nat} : p.Covers v ↔ v / 64 ^ p.more / 64 = p.value ∧
    p.low ≤ 0x80 + v / 64 ^ p.more % 64 ∧ 0x80 + v / 64 ^ p.more % 64 ≤ p.high :=
  ⟨fun h => ⟨h.value, h.low, h.high⟩, fun h => ⟨h.1, h.2.1, h.2.2⟩⟩

/-- A further byte is a byte. -/
theorem toNat_ofNat_further (n : Nat) : (UInt8.ofNat (0x80 + n % 64)).toNat = 0x80 + n % 64 :=
  UInt8.toNat_ofNat_of_lt' (show _ < 256 by omega)

@[simp] theorem length_further (k v : Nat) : (further k v).length = k := by
  induction k with
  | zero => rfl
  | succ k ih => rw [further, List.length_cons, ih]

theorem Pending.Covers.in_range {p : Pending} {v : Nat} (h : p.Covers v) :
    p.low ≤ (UInt8.ofNat (0x80 + v / 64 ^ p.more % 64)).toNat ∧
      (UInt8.ofNat (0x80 + v / 64 ^ p.more % 64)).toNat ≤ p.high := by
  rw [toNat_ofNat_further]
  exact ⟨h.low, h.high⟩

/-! ## The first byte -/

theorem isValidChar_toNat (c : Char) : c.toNat.isValidChar := c.valid

theorem toNat_ofNat {v : Nat} (h : v.isValidChar) : (Char.ofNat v).toNat = v := by
  rw [Char.ofNat, dif_pos h]
  rfl

/-- **The bytes of a character**: its code point, or a first byte and further ones. -/
theorem utf8EncodeChar_cases (c : Char) :
    (c.toNat < 0x80 ∧ utf8EncodeChar c = [UInt8.ofNat c.toNat]) ∨
      ∃ b k, Leads c.toNat b k ∧ utf8EncodeChar c = UInt8.ofNat b :: further k c.toNat := by
  have hvalid : c.toNat.isValidChar := isValidChar_toNat c
  unfold Nat.isValidChar at hvalid
  show (c.val.toNat < _ ∧ _) ∨ _
  rw [show c.toNat = c.val.toNat from rfl] at hvalid ⊢
  unfold utf8EncodeChar
  generalize c.val.toNat = v at hvalid ⊢
  dsimp only
  split
  · exact .inl ⟨by omega, rfl⟩
  · right
    split
    · refine ⟨0xc0 + v / 64, 1, .inl ⟨by omega, by omega, rfl, rfl⟩, ?_⟩
      rw [Nat.mod_eq_of_lt (by omega), Nat.add_comm]
      simp [further, Nat.add_comm]
    · have hdiv : v / 4096 = v / 64 / 64 := (Nat.div_div_eq_div_mul v 64 64).symm
      split
      · refine ⟨0xe0 + v / 64 / 64, 2, .inr (.inl ⟨by omega, by omega, rfl, rfl⟩), ?_⟩
        rw [hdiv, Nat.mod_eq_of_lt (by omega), Nat.add_comm]
        simp [further, Nat.add_comm]
      · have hdiv' : v / 262144 = v / 64 / 64 / 64 := by
          rw [Nat.div_div_eq_div_mul, Nat.div_div_eq_div_mul]
        refine ⟨0xf0 + v / 64 / 64 / 64, 3, .inr (.inr ⟨by omega, by omega, rfl, rfl⟩), ?_⟩
        rw [hdiv', Nat.mod_eq_of_lt (by omega), Nat.add_comm]
        simp [further, Nat.add_comm]

section
variable {p : Pending} {start b : Nat}

theorem of_lead? (h : lead? start b = some p) : p.start = start ∧ p.seen = 1 ∧ 0xc2 ≤ b ∧
    0x80 ≤ p.low ∧ p.low ≤ p.high ∧ p.high ≤ 0xbf := by
  unfold lead? at h
  repeat' split at h
  all_goals cases h
  all_goals
    dsimp only
    omega

/-- The code points of the characters that a byte starts. -/
theorem covers_of_lead? (h : lead? start b = some p) (v : Nat) :
    p.Covers v ↔ v.isValidChar ∧ Leads v b (p.more + 1) := by
  have h2 : v / 4096 = v / 64 / 64 := (Nat.div_div_eq_div_mul v 64 64).symm
  rw [Pending.covers_iff]
  unfold Leads Nat.isValidChar
  unfold lead? at h
  repeat' split at h
  all_goals cases h
  all_goals simp only [Nat.reduceAdd, Nat.reducePow, Nat.pow_zero, Nat.div_one, h2, and_true,
    Nat.reduceEqDiff, and_false, or_false, false_or]
  all_goals omega

/-- The first byte of a character tells how many bytes follow it. -/
theorem exists_lead? {v k : Nat} (h : Leads v b k) (start : Nat) :
    ∃ p, lead? start b = some p ∧ k = p.more + 1 := by
  unfold Leads at h
  unfold lead?
  repeat' split
  all_goals first
    | exact ⟨_, rfl, by dsimp only; omega⟩
    | omega

end

theorem Leads.eq {v b b' k k' : Nat} (h : Leads v b k) (h' : Leads v b' k') : b = b' ∧ k = k' := by
  unfold Leads at h h'
  omega

theorem Leads.range {v b k : Nat} (h : Leads v b k) : 0x80 ≤ v ∧ 0x80 ≤ b ∧ b < 256 := by
  unfold Leads at h
  omega

/-- The bytes of a character of ASCII. -/
theorem utf8EncodeChar_ofNat {n : Nat} (h : n < 0x80) :
    utf8EncodeChar (Char.ofNat n) = [UInt8.ofNat n] := by
  have hto : (Char.ofNat n).toNat = n := toNat_ofNat (.inl (Nat.lt_trans h (by decide)))
  rcases utf8EncodeChar_cases (Char.ofNat n) with ⟨-, henc⟩ | ⟨b, k, hleads, -⟩
  · rw [henc, hto]
  · rw [hto] at hleads
    exact absurd hleads.range.1 (by omega)

/-- A byte that is not of ASCII starts the bytes of a character if it is the first byte of its code
point. -/
theorem singleton_isPrefix_iff {b : UInt8} (hb : 0x80 ≤ b.toNat) (c : Char) :
    [b] <+: utf8EncodeChar c ↔ ∃ k, Leads c.toNat b.toNat k := by
  rcases utf8EncodeChar_cases c with ⟨hlt, henc⟩ | ⟨b', k, hleads, henc⟩
  · rw [henc, List.cons_prefix_cons]
    constructor
    · rintro ⟨rfl, -⟩
      rw [UInt8.toNat_ofNat_of_lt' (Nat.lt_trans hlt (by decide))] at hb
      omega
    · rintro ⟨k, hk⟩
      exact absurd hk.range.1 (by omega)
  · rw [henc, List.cons_prefix_cons]
    have hto : (UInt8.ofNat b').toNat = b' := UInt8.toNat_ofNat_of_lt' hleads.range.2.2
    constructor
    · rintro ⟨rfl, -⟩
      rw [hto]
      exact ⟨k, hleads⟩
    · rintro ⟨k', hk'⟩
      refine ⟨?_, List.nil_prefix⟩
      rw [← (hk'.eq hleads).1, UInt8.ofNat_toNat]

/-- **The first byte of a character.** -/
theorem reads_of_lead? {p : Pending} {start : Nat} {b : UInt8}
    (h : lead? start b.toNat = some p) : p.Reads [b] := by
  obtain ⟨-, hseen, hb, hrange⟩ := of_lead? h
  refine { ne_nil := List.cons_ne_nil _ _, seen := hseen.symm, range := hrange,
           valid := fun v hv => ?_, spells := fun c hc => ?_, covers := fun c hc => ?_ }
  · exact ((covers_of_lead? h v).1 hv).1
  · have hleads := ((covers_of_lead? h _).1 hc).2
    rcases utf8EncodeChar_cases c with ⟨hlt, -⟩ | ⟨b', k, hleads', henc⟩
    · exact absurd hleads.range.1 (by omega)
    · obtain ⟨rfl, rfl⟩ := hleads.eq hleads'
      rw [henc, UInt8.ofNat_toNat]
      rfl
  · obtain ⟨k, hleads⟩ := (singleton_isPrefix_iff (by omega) c).1 hc
    obtain ⟨p', hp', rfl⟩ := exists_lead? hleads start
    rw [h, Option.some.injEq] at hp'
    subst hp'
    exact (covers_of_lead? h _).2 ⟨isValidChar_toNat c, hleads⟩

theorem not_isPrefix_of_lead? {start : Nat} {b : UInt8} (hb : 0x80 ≤ b.toNat)
    (h : lead? start b.toNat = none) (c : Char) : ¬[b] <+: utf8EncodeChar c := by
  intro hc
  obtain ⟨k, hleads⟩ := (singleton_isPrefix_iff hb c).1 hc
  obtain ⟨p, hp, -⟩ := exists_lead? hleads start
  rw [h] at hp
  cases hp

/-! ## Further bytes -/

namespace Pending

variable {p : Pending} {pre : List UInt8}

/-- A byte goes on with the characters whose code points it fits. -/
theorem Reads.append_isPrefix_iff (h : p.Reads pre) (b : UInt8) (c : Char) :
    (pre ++ [b]) <+: utf8EncodeChar c ↔
      p.Covers c.toNat ∧ 0x80 + c.toNat / 64 ^ p.more % 64 = b.toNat := by
  constructor
  · intro hc
    have hcovers := h.covers c ((List.prefix_append _ _).trans hc)
    rw [h.spells c hcovers, further, List.prefix_append_right_inj, List.cons_prefix_cons] at hc
    refine ⟨hcovers, ?_⟩
    rw [hc.1, toNat_ofNat_further]
  · rintro ⟨hcovers, hb⟩
    rw [h.spells c hcovers, further, List.prefix_append_right_inj, List.cons_prefix_cons]
    refine ⟨?_, List.nil_prefix⟩
    rw [← UInt8.toNat_inj, toNat_ofNat_further, hb]

/-- What a further byte leaves open are the code points that it fits. -/
theorem Reads.covers_advance_iff (h : p.Reads pre) (hmore : p.more ≠ 0) {b : Nat}
    (hb : p.low ≤ b ∧ b ≤ p.high) (v : Nat) :
    (p.advance b).Covers v ↔ p.Covers v ∧ 0x80 + v / 64 ^ p.more % 64 = b := by
  obtain ⟨m, hm⟩ := Nat.exists_eq_succ_of_ne_zero hmore
  have hrange := h.range
  have hpow : v / 64 ^ (m + 1) = v / 64 ^ m / 64 := by
    rw [Nat.pow_succ, Nat.div_div_eq_div_mul]
  rw [covers_iff, covers_iff]
  unfold Pending.advance extend
  simp only [hm, Nat.succ_eq_add_one, Nat.add_sub_cancel, hpow]
  omega

/-- **A byte inside a character.** -/
theorem Reads.advance (h : p.Reads pre) (hmore : p.more ≠ 0) {b : UInt8}
    (hb : p.low ≤ b.toNat ∧ b.toNat ≤ p.high) : (p.advance b.toNat).Reads (pre ++ [b]) := by
  have hiff := h.covers_advance_iff hmore hb
  refine { ne_nil := by simp, seen := ?_, range := ?_, valid := fun v hv => ?_,
           spells := fun c hc => ?_, covers := fun c hc => ?_ }
  · rw [List.length_append, h.seen]
    rfl
  · show 0x80 ≤ 0x80 ∧ 0x80 ≤ 0xbf ∧ 0xbf ≤ 0xbf
    decide
  · exact h.valid v ((hiff v).1 hv).1
  · obtain ⟨hcovers, hlast⟩ := (hiff _).1 hc
    have hm : (p.advance b.toNat).more + 1 = p.more := Nat.succ_pred hmore
    rw [h.spells c hcovers, further, hlast, UInt8.ofNat_toNat, hm, List.append_assoc]
    rfl
  · exact (hiff _).2 ((h.append_isPrefix_iff b c).1 hc)

/-- **The last byte of a character.** -/
theorem Reads.last (h : p.Reads pre) (hmore : p.more = 0) {b : UInt8}
    (hb : p.low ≤ b.toNat ∧ b.toNat ≤ p.high) :
    utf8EncodeChar (Char.ofNat (p.extend b.toNat)) = pre ++ [b] := by
  have hrange := h.range
  have hcovers : p.Covers (p.extend b.toNat) := by
    rw [covers_iff, hmore, Nat.pow_zero, Nat.div_one]
    unfold extend
    omega
  have hto := toNat_ofNat (h.valid _ hcovers)
  have hbyte : 0x80 + p.extend b.toNat % 64 = b.toNat := by
    unfold extend
    omega
  rw [h.spells _ (by rwa [hto]), hmore, hto, further, further, Nat.pow_zero, Nat.div_one, hbyte,
    UInt8.ofNat_toNat]

/-- **A byte that no character goes on with.** -/
theorem Reads.refuse (h : p.Reads pre) {b : UInt8} (hb : ¬(p.low ≤ b.toNat ∧ b.toNat ≤ p.high))
    (c : Char) : ¬(pre ++ [b]) <+: utf8EncodeChar c := by
  intro hc
  obtain ⟨hcovers, heq⟩ := (h.append_isPrefix_iff b c).1 hc
  rw [← heq] at hb
  exact hb ⟨hcovers.low, hcovers.high⟩

/-- **Some character goes on.** -/
theorem Reads.exists_char (h : p.Reads pre) :
    ∃ c, pre <+: utf8EncodeChar c ∧ pre ≠ utf8EncodeChar c := by
  have hrange := h.range
  have hcovers : p.Covers ((p.value * 64 + (p.low - 0x80)) * 64 ^ p.more) := by
    rw [covers_iff, Nat.mul_div_cancel _ (Nat.pow_pos (by decide))]
    omega
  rw [← toNat_ofNat (h.valid _ hcovers)] at hcovers
  refine ⟨Char.ofNat ((p.value * 64 + (p.low - 0x80)) * 64 ^ p.more), ?_⟩
  rw [h.spells _ hcovers, further]
  exact ⟨List.prefix_append _ _, by simp⟩

end Pending

end BlockSlots.Text.Utf8
