import BlockSlots.Expand
import BlockSlots.Proofs.EncodedChars

/-!
# Bytes as input

The bytes of a text expand as the text does. Bytes of no text are refused with the place where they
stop being one, and it is said whether they could have gone on (`FaultAt`).

* `decodeFrom_encoded`: the bytes of characters are read as these characters.
* `explained_decodeFrom`: what else can come of bytes.
* `length_encoded_le`: nothing longer than what stands before a fault is a text.
* `expandBytes_utf8`: what holds of documents.
-/

set_option autoImplicit false

namespace BlockSlots

namespace Text.Utf8

open String (utf8EncodeChar)

/-- The bytes of characters. -/
def encoded (cs : List Char) : List UInt8 := cs.flatMap utf8EncodeChar

/-- `bs` are first bytes of a character. -/
def Starts (bs : List UInt8) : Prop := ∃ c : Char, bs <+: utf8EncodeChar c

/-- `bs` are first bytes of a character, but not all of its bytes. -/
def Unfinished (bs : List UInt8) : Prop :=
  bs ≠ [] ∧ ∃ c : Char, bs <+: utf8EncodeChar c ∧ bs ≠ utf8EncodeChar c

/-- `n` bytes at the front of `bs` are ill-formed: they are the longest ones there that a character
starts with, or a single one where no character starts. -/
structure IllFormed (bs : List UInt8) (n : Nat) : Prop where
  range : 1 ≤ n ∧ n ≤ 3 ∧ n ≤ bs.length
  starts : n = 1 ∨ Starts (bs.take n)
  longest : ∀ m, n < m → m ≤ bs.length → ¬Starts (bs.take m)

/-- What a fault says of bytes `rest`, with `index` bytes of whole characters before them. -/
inductive FaultAt (index : Nat) (rest : List UInt8) : Fault → String → Prop where
  | truncated : Unfinished rest → FaultAt index rest (.truncated index)
      ("incomplete utf-8 byte sequence from index " ++ toString index)
  | malformed {n : Nat} : ¬Unfinished rest → IllFormed rest n →
      FaultAt index rest (.malformed n index)
        ("invalid utf-8 sequence of " ++ toString n ++ " bytes from index " ++ toString index)

/-! ## The bytes of characters -/

/-- The rest of a character is read as that character. -/
theorem decodeFrom_further {m : Nat} {p : Pending} (hm : p.more = m) {pre : List UInt8}
    (h : p.Reads pre) {c : Char} (hc : p.Covers c.toNat) (index : Nat) (bs : List UInt8) :
    decodeFrom index (some p) (further (m + 1) c.toNat ++ bs) =
      (decodeFrom (index + (m + 1)) none bs).map (c :: ·) := by
  induction m generalizing p pre index with
  | zero =>
    have hin := hc.in_range
    have hvalue := hc.value
    have heq : p.extend (0x80 + c.toNat / 64 ^ 0 % 64) = c.toNat := by
      rw [hm, Nat.pow_zero, Nat.div_one] at hvalue
      unfold Pending.extend
      omega
    rw [hm] at hin
    rw [further, further, List.cons_append, decodeFrom, if_pos hin, if_pos hm, toNat_ofNat_further,
      heq, Char.ofNat_toNat]
    rfl
  | succ m ih =>
    have hin := hc.in_range
    have hmore : p.more ≠ 0 := by omega
    have hnext := (h.covers_advance_iff hmore hin c.toNat).2 ⟨hc, by rw [toNat_ofNat_further]⟩
    have hm' : (p.advance (UInt8.ofNat (0x80 + c.toNat / 64 ^ p.more % 64)).toNat).more = m := by
      show p.more - 1 = m
      omega
    have hrest := ih hm' (h.advance hmore hin) hnext (index + 1)
    rw [← hm] at hrest
    rw [further, ← hm, List.cons_append, decodeFrom, if_pos hin, if_neg hmore, hrest,
      Nat.add_assoc, Nat.add_comm 1]

/-- **The bytes of a character** are read as that character. -/
theorem decodeFrom_utf8EncodeChar (index : Nat) (c : Char) (bs : List UInt8) :
    decodeFrom index none (utf8EncodeChar c ++ bs) =
      (decodeFrom (index + (utf8EncodeChar c).length) none bs).map (c :: ·) := by
  rcases utf8EncodeChar_cases c with ⟨hlt, henc⟩ | ⟨b, k, hleads, henc⟩
  · have hto : (UInt8.ofNat c.toNat).toNat = c.toNat :=
      UInt8.toNat_ofNat_of_lt' (Nat.lt_trans hlt (by decide))
    rw [henc, List.singleton_append, decodeFrom, hto, if_pos hlt, Char.ofNat_toNat]
    rfl
  · have hto : (UInt8.ofNat b).toNat = b := UInt8.toNat_ofNat_of_lt' hleads.range.2.2
    obtain ⟨p, hp, rfl⟩ := exists_lead? hleads index
    rw [← hto] at hp
    have hcovers := (covers_of_lead? hp _).2 ⟨isValidChar_toNat c, by rwa [hto]⟩
    have hhigh : ¬(UInt8.ofNat b).toNat < 0x80 := by
      rw [hto]
      exact Nat.not_lt.2 hleads.range.2.1
    rw [henc, List.cons_append, decodeFrom, if_neg hhigh, hp]
    dsimp only
    rw [decodeFrom_further rfl (reads_of_lead? hp) hcovers, List.length_cons, length_further,
      Nat.add_assoc, Nat.add_comm 1]

/-- **The bytes of characters** are read as these characters. -/
theorem decodeFrom_encoded (index : Nat) (cs : List Char) (bs : List UInt8) :
    decodeFrom index none (encoded cs ++ bs) =
      (decodeFrom (index + (encoded cs).length) none bs).map (cs ++ ·) := by
  induction cs generalizing index with
  | nil =>
    show decodeFrom index none bs = (decodeFrom index none bs).map id
    cases decodeFrom index none bs <;> rfl
  | cons c cs ih =>
    rw [encoded, List.flatMap_cons, List.append_assoc, decodeFrom_utf8EncodeChar, ← encoded, ih,
      List.length_append, Nat.add_assoc]
    cases decodeFrom (index + ((utf8EncodeChar c).length + (encoded cs).length)) none bs <;> rfl

/-! ## Other bytes -/

/-- Where a decoder stands: between two characters, or inside one that starts at `start`, after its
first bytes. -/
inductive Stands (start : Nat) : Option Pending → List UInt8 → Prop where
  | between : Stands start none []
  | inside {p : Pending} {pre : List UInt8} : p.Reads pre → p.start = start →
      Stands start (some p) pre

/-- What comes of bytes from `start` on: they are those of the characters that are read, or the
fault is where they stop being those of characters. -/
def Explained (start : Nat) (bs : List UInt8) : Except Fault (List Char) → Prop
  | .ok cs => bs = encoded cs
  | .error fault => ∃ cs rest, bs = encoded cs ++ rest ∧
      FaultAt (start + (encoded cs).length) rest fault fault.message

theorem Explained.cons {start : Nat} {bs : List UInt8} {r : Except Fault (List Char)} {c : Char}
    (h : Explained (start + (utf8EncodeChar c).length) bs r) :
    Explained start (utf8EncodeChar c ++ bs) (r.map (c :: ·)) := by
  cases r with
  | ok cs => exact congrArg (utf8EncodeChar c ++ ·) h
  | error fault =>
    obtain ⟨cs, rest, rfl, hfault⟩ := h
    refine ⟨c :: cs, rest, ?_, ?_⟩
    · rw [encoded, encoded, List.flatMap_cons, List.append_assoc]
    · rwa [encoded, List.flatMap_cons, List.length_append, ← encoded, ← Nat.add_assoc]

theorem Unfinished.starts {bs : List UInt8} (h : Unfinished bs) : Starts bs := by
  obtain ⟨-, c, hc, -⟩ := h
  exact ⟨c, hc⟩

theorem Starts.of_isPrefix {bs bs' : List UInt8} (h : Starts bs') (hp : bs <+: bs') :
    Starts bs := by
  obtain ⟨c, hc⟩ := h
  exact ⟨c, hp.trans hc⟩

section
variable {p : Pending} {pre : List UInt8}

theorem Pending.Reads.unfinished (h : p.Reads pre) : Unfinished pre :=
  ⟨h.ne_nil, h.exists_char⟩

theorem Unfinished.length_le (h : Unfinished pre) : pre.length ≤ 3 := by
  obtain ⟨-, c, hc, hne⟩ := h
  have hlt : pre.length < (utf8EncodeChar c).length :=
    Nat.lt_of_le_of_ne hc.length_le fun heq => hne (hc.eq_of_length heq)
  rw [String.length_utf8EncodeChar] at hlt
  have hle := c.utf8Size_le_four
  omega

/-- What is said of a byte with which no character goes on after `pre`. -/
theorem faultAt_of_refused {b : UInt8} (hb : ¬Starts (pre ++ [b])) (bs : List UInt8) {n : Nat}
    (hn : pre = [] ∧ n = 1 ∨ Unfinished pre ∧ n = pre.length) (start : Nat) :
    FaultAt start (pre ++ b :: bs) (.malformed n start) (Fault.malformed n start).message := by
  have hstop : ∀ {more : List UInt8}, (pre ++ [b]) <+: more → ¬Starts more :=
    fun hp hs => hb (hs.of_isPrefix hp)
  have hfront : pre ++ b :: bs = (pre ++ [b]) ++ bs := by rw [List.append_assoc]; rfl
  refine .malformed (fun hu => ?_) { range := ?_, starts := ?_, longest := fun m hm hle hs => ?_ }
  · rw [hfront] at hu
    exact hstop (List.prefix_append _ _) hu.starts
  · rw [List.length_append, List.length_cons]
    rcases hn with ⟨rfl, rfl⟩ | ⟨hu, rfl⟩
    · omega
    · have hpos := List.length_pos_iff.2 hu.1
      have hle := hu.length_le
      omega
  · rcases hn with ⟨-, rfl⟩ | ⟨hu, rfl⟩
    · exact .inl rfl
    · right
      rw [List.take_left]
      exact hu.starts
  · have hlen : (pre ++ [b]).length ≤ m := by
      rw [List.length_append, List.length_singleton]
      rcases hn with ⟨rfl, rfl⟩ | ⟨-, rfl⟩
      · exact Nat.le_of_lt hm
      · exact hm
    rw [hfront] at hs
    exact hstop ((List.prefix_take_iff.2 ⟨List.prefix_append _ _, hlen⟩)) hs

end

/-- **What comes of bytes.** -/
theorem explained_decodeFrom {start : Nat} {state : Option Pending} {pre : List UInt8}
    (h : Stands start state pre) (bs : List UInt8) :
    Explained start (pre ++ bs) (decodeFrom (start + pre.length) state bs) := by
  induction bs generalizing start state pre with
  | nil =>
    cases h with
    | between => rfl
    | inside hr hstart =>
      rw [List.append_nil, decodeFrom, hstart]
      exact ⟨[], pre, rfl, .truncated hr.unfinished⟩
  | cons b bs ih =>
    cases h with
    | between =>
      rw [List.nil_append, decodeFrom]
      split
      · next hlow =>
        have henc : utf8EncodeChar (Char.ofNat b.toNat) = [b] := by
          rw [utf8EncodeChar_ofNat hlow, UInt8.ofNat_toNat]
        have hrest := ih (.between : Stands (start + 1) none [])
        rw [← List.singleton_append, ← henc]
        refine Explained.cons ?_
        rw [henc]
        exact hrest
      · next hhigh =>
        cases hl : lead? start b.toNat with
        | some p => exact ih (.inside (reads_of_lead? hl) (of_lead? hl).1)
        | none =>
          have hb : ¬Starts ([] ++ [b]) := fun ⟨c, hc⟩ =>
            not_isPrefix_of_lead? (Nat.not_lt.1 hhigh) hl c hc
          exact ⟨[], b :: bs, rfl, faultAt_of_refused hb bs (.inl ⟨rfl, rfl⟩) start⟩
    | @inside p _ hr hstart =>
      have hsplit : pre ++ b :: bs = (pre ++ [b]) ++ bs := by rw [List.append_assoc]; rfl
      have hlen : (pre ++ [b]).length = pre.length + 1 := List.length_append
      rw [decodeFrom]
      split
      · next hin =>
        rw [hsplit]
        split
        · next hmore =>
          have henc := hr.last hmore hin
          rw [← henc]
          refine Explained.cons ?_
          rw [henc, hlen, ← Nat.add_assoc]
          exact ih .between
        · next hmore =>
          have hrest := ih (.inside (hr.advance hmore hin) hstart)
          rwa [hlen, ← Nat.add_assoc] at hrest
      · next hout =>
        have hb : ¬Starts (pre ++ [b]) := fun ⟨c, hc⟩ => hr.refuse hout c hc
        refine ⟨[], pre ++ b :: bs, rfl, ?_⟩
        rw [hstart]
        exact faultAt_of_refused hb bs (.inr ⟨hr.unfinished, hr.seen.symm⟩) start

/-- Between two characters, `start` bytes from the front. -/
theorem explained_between (start : Nat) (bs : List UInt8) :
    Explained start bs (decodeFrom start none bs) :=
  explained_decodeFrom .between bs

/-! ## Texts -/

theorem FaultAt.index_eq {i j : Nat} {rest rest' : List UInt8} {fault : Fault}
    {message message' : String} (h : FaultAt i rest fault message)
    (h' : FaultAt j rest' fault message') : i = j := by
  cases h <;> cases h' <;> rfl

/-- Nothing longer than what stands before a fault is a text. -/
theorem length_encoded_le {cs ts : List Char} {rest : List UInt8} {fault : Fault} {message : String}
    (h : decodeFrom 0 none (encoded cs ++ rest) = .error fault)
    (hfault : FaultAt (encoded cs).length rest fault message)
    (hp : encoded ts <+: encoded cs ++ rest) : (encoded ts).length ≤ (encoded cs).length := by
  obtain ⟨more, hmore⟩ := hp
  rw [← hmore, decodeFrom_encoded] at h
  have hexp := explained_between (0 + (encoded ts).length) more
  cases hd : decodeFrom (0 + (encoded ts).length) none more with
  | ok us =>
    rw [hd] at h
    cases h
  | error fault' =>
    rw [hd] at h
    cases h
    rw [hd] at hexp
    obtain ⟨us, rest', -, hfault'⟩ := hexp
    have hindex := hfault.index_eq hfault'
    omega

theorem toList_toUTF8 (text : String) : text.toUTF8.data.toList = encoded text.toList := by
  rw [← String.ofList_toList (s := text), String.toUTF8_eq_toByteArray, String.toByteArray_ofList,
    List.utf8Encode, List.data_toByteArray, String.toList_ofList]
  rfl

/-- **The bytes of a text** are read as the text. -/
theorem decode_toUTF8 (text : String) : decode text.toUTF8 = .ok text := by
  have h := decodeFrom_encoded 0 text.toList []
  rw [List.append_nil] at h
  rw [decode, toList_toUTF8, h]
  simp [decodeFrom, Except.map]

theorem toUTF8_of_encoded {bytes : ByteArray} {cs : List Char}
    (h : bytes.data.toList = encoded cs) : (String.ofList cs).toUTF8 = bytes := by
  apply ByteArray.ext
  rw [← Array.toList_inj, toList_toUTF8, String.toList_ofList, h]

/-- **Bytes of no text** are refused where they stop being a text. -/
theorem decode_of_no_text {bytes : ByteArray} (h : ∀ text : String, text.toUTF8 ≠ bytes) :
    ∃ cs rest fault, bytes.data.toList = encoded cs ++ rest ∧
      decode bytes = .error fault ∧ FaultAt (encoded cs).length rest fault fault.message ∧
      ∀ ts, encoded ts <+: bytes.data.toList → (encoded ts).length ≤ (encoded cs).length := by
  have hexp := explained_between 0 bytes.data.toList
  cases hd : decodeFrom 0 none bytes.data.toList with
  | ok cs =>
    rw [hd] at hexp
    exact absurd (toUTF8_of_encoded hexp) (h _)
  | error fault =>
    rw [hd] at hexp
    obtain ⟨cs, rest, hbytes, hfault⟩ := hexp
    rw [Nat.zero_add] at hfault
    refine ⟨cs, rest, fault, hbytes, ?_, hfault, fun ts hts => ?_⟩
    · rw [decode, hd]
      rfl
    · rw [hbytes] at hd hts
      exact length_encoded_le hd hfault hts

end Text.Utf8

open Text.Utf8

/-- **Bytes as input.** The bytes of a text expand as the text does, for every target. Bytes of no
text are refused for every target, also for one that there is not. They start with the bytes of a
text, than which no longer text is at their front; from there on they are first bytes of a
character, or as many of them are ill-formed as is said. -/
theorem expandBytes_utf8 (settings : Settings) (target : Target) :
    (∀ text : String, expandBytes settings target text.toUTF8 = expand settings target text) ∧
      ∀ bytes : ByteArray, (∀ text : String, text.toUTF8 ≠ bytes) →
        ∃ (whole : String) (rest : List UInt8) (fault : Fault) (message : String),
          bytes.data.toList = whole.toUTF8.data.toList ++ rest ∧
          (∀ text : String, text.toUTF8.data.toList <+: bytes.data.toList →
            text.toUTF8.size ≤ whole.toUTF8.size) ∧
          FaultAt whole.toUTF8.size rest fault message ∧
          expandBytes settings target bytes = .error (.input (.encoding fault)) ∧
          (InputFault.encoding fault).reason = "Invalid text: " ++ message := by
  constructor
  · intro text
    rw [expandBytes, decode_toUTF8]
  · intro bytes hbytes
    obtain ⟨cs, rest, fault, hsplit, hdecode, hfault, hlongest⟩ := decode_of_no_text hbytes
    have hwhole : (String.ofList cs).toUTF8.data.toList = encoded cs := by
      rw [toList_toUTF8, String.toList_ofList]
    have hsize : ∀ text : String, text.toUTF8.size = (encoded text.toList).length := fun text => by
      rw [← toList_toUTF8]
      rfl
    refine ⟨String.ofList cs, rest, fault, fault.message, ?_, fun text htext => ?_, ?_, ?_, rfl⟩
    · rw [hwhole, hsplit]
    · rw [toList_toUTF8] at htext
      rw [hsize, hsize, String.toList_ofList]
      exact hlongest _ htext
    · rw [hsize, String.toList_ofList]
      exact hfault
    · rw [expandBytes, hdecode]

/-- A letter, and the first two bytes of a sign that takes three, with something else after them. -/
theorem expandBytes_utf8_sample :
    expandBytes {} (.named "c") "~begin é".toUTF8 = expand {} (.named "c") "~begin é" ∧
      (∀ text : String, text.toUTF8 ≠ ⟨#[0x61, 0xe2, 0x82, 0x28]⟩) ∧
      ∃ (whole : String) (rest : List UInt8) (fault : Fault) (message : String),
        [0x61, 0xe2, 0x82, 0x28] = whole.toUTF8.data.toList ++ rest ∧
        (∀ text : String, text.toUTF8.data.toList <+: [0x61, 0xe2, 0x82, 0x28] →
          text.toUTF8.size ≤ whole.toUTF8.size) ∧
        FaultAt whole.toUTF8.size rest fault message ∧
        expandBytes {} (.named "cobol") ⟨#[0x61, 0xe2, 0x82, 0x28]⟩ =
          .error (.input (.encoding fault)) ∧
        (InputFault.encoding fault).reason = "Invalid text: " ++ message := by
  have h : ∀ text : String, text.toUTF8 ≠ ⟨#[0x61, 0xe2, 0x82, 0x28]⟩ := by
    intro text htext
    have hdecode := decode_toUTF8 text
    have hfault : decode ⟨#[0x61, 0xe2, 0x82, 0x28]⟩ = .error (.malformed 2 1) := rfl
    rw [htext, hfault] at hdecode
    cases hdecode
  exact ⟨(expandBytes_utf8 {} (.named "c")).1 "~begin é", h,
    (expandBytes_utf8 {} (.named "cobol")).2 _ h⟩

end BlockSlots
