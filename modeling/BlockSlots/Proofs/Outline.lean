import BlockSlots.Line.Reader
import Mathlib.Data.List.Basic
import Mathlib.Data.List.Induction

/-!
# The outline of a document

How the lines of a document open and close blocks, told from the lines alone. A document is given
by the readings of its lines; a block is known by the number of the line that opens it.

* `Balanced`: lines in which every block that is opened is closed, and no other.
* `openers`: the blocks that are open after some lines, innermost first. Balanced lines leave them
  as they are (`openers_append_of_balanced`).
* `innermost?_eq_some_iff`: the innermost open block is the one after whose first line the lines
  are balanced.
* `closes_iff`: a line closes the block that is the innermost one in front of it.
-/

set_option autoImplicit false

namespace BlockSlots

/-- The reading of a line. One whose list cannot be read opens and closes nothing, like a plain
line. -/
def Line.read (line : String) : Line := (Line.ofString line).toOption.getD .plain

theorem Line.read_of_ofString {line : String} {l : Line} (h : Line.ofString line = .ok l) :
    Line.read line = l := by
  rw [Line.read, h]
  rfl

/-- The readings of the lines of a document. -/
def outline (lines : List String) : List Line := lines.map Line.read

@[simp] theorem length_outline (lines : List String) : (outline lines).length = lines.length :=
  List.length_map ..

theorem outline_append (lines more : List String) :
    outline (lines ++ more) = outline lines ++ outline more :=
  List.map_append ..

theorem outline_take (lines : List String) (n : Nat) :
    outline (lines.take n) = (outline lines).take n :=
  List.map_take ..

theorem getElem?_outline {lines : List String} {n : Nat} {line : String}
    (h : lines[n]? = some line) : (outline lines)[n]? = some (Line.read line) := by
  rw [outline, List.getElem?_map, h]
  rfl

theorem getElem?_append_cases {α : Type} {a b : List α} {k : Nat} {x : α}
    (h : (a ++ b)[k]? = some x) :
    k < a.length ∧ a[k]? = some x ∨ ∃ j, k = a.length + j ∧ b[j]? = some x := by
  rcases Nat.lt_or_ge k a.length with hlt | hge
  · rw [List.getElem?_append_left hlt] at h
    exact .inl ⟨hlt, h⟩
  · rw [List.getElem?_append_right hge] at h
    exact .inr ⟨k - a.length, by omega, h⟩

theorem getElem?_concat_cases {α : Type} {a : List α} {k : Nat} {x y : α}
    (h : (a ++ [y])[k]? = some x) : k < a.length ∧ a[k]? = some x ∨ k = a.length ∧ x = y := by
  rcases getElem?_append_cases h with h | ⟨j, rfl, hj⟩
  · exact .inl h
  · obtain ⟨hlt, hget⟩ := List.getElem?_eq_some_iff.1 hj
    obtain rfl : j = 0 := by simpa using hlt
    exact .inr ⟨rfl, hget.symm⟩

/-! ## Open blocks -/

/-- The open blocks, innermost first, after line number `k`. -/
def Line.reopen (k : Nat) (inner : List Nat) : Line → List Nat
  | .enter _ => k :: inner
  | .leave _ => inner.tail
  | _ => inner

/-- The blocks that are open after some lines, innermost first, each by the number of the line that
opens it. -/
def openers (ls : List Line) : List Nat :=
  ls.zipIdx.foldl (fun inner p => p.1.reopen p.2 inner) []

/-- The innermost block that is open after some lines. -/
def innermost? (ls : List Line) : Option Nat := (openers ls).head?

@[simp] theorem openers_nil : openers [] = [] := rfl

theorem openers_concat (ls : List Line) (l : Line) :
    openers (ls ++ [l]) = l.reopen ls.length (openers ls) := by
  simp [openers, List.zipIdx_append]

theorem lt_of_mem_openers {ls : List Line} {b : Nat} (h : b ∈ openers ls) : b < ls.length := by
  induction ls using List.reverseRecOn with
  | nil => cases h
  | append_singleton ls l ih =>
    rw [openers_concat] at h
    rw [List.length_append, List.length_singleton]
    cases l with
    | enter indent =>
      rcases List.mem_cons.1 h with rfl | h
      · exact Nat.lt_succ_self _
      · exact Nat.lt_succ_of_lt (ih h)
    | leave indent => exact Nat.lt_succ_of_lt (ih (List.mem_of_mem_tail h))
    | declare indent items => exact Nat.lt_succ_of_lt (ih h)
    | release indent names => exact Nat.lt_succ_of_lt (ih h)
    | plain => exact Nat.lt_succ_of_lt (ih h)

theorem lt_of_innermost? {ls : List Line} {b : Nat} (h : innermost? ls = some b) :
    b < ls.length :=
  lt_of_mem_openers (List.mem_of_mem_head? h)

/-- An inner block is opened after the blocks around it. -/
theorem pairwise_openers (ls : List Line) : (openers ls).Pairwise (· > ·) := by
  induction ls using List.reverseRecOn with
  | nil => exact .nil
  | append_singleton ls l ih =>
    rw [openers_concat]
    cases l with
    | enter indent => exact List.pairwise_cons.2 ⟨fun b hb => lt_of_mem_openers hb, ih⟩
    | leave indent => exact ih.tail
    | declare indent items => exact ih
    | release indent names => exact ih
    | plain => exact ih

theorem nodup_openers (ls : List Line) : (openers ls).Nodup :=
  (pairwise_openers ls).imp fun h => Nat.ne_of_gt h

/-! ## Balanced lines -/

/-- Whether a line opens or closes a block. -/
def Line.isBracket : Line → Bool
  | .enter _ | .leave _ => true
  | _ => false

/-- Every block that is opened is closed, and no other. -/
inductive Balanced : List Line → Prop
  | nil : Balanced []
  | single {l : Line} : l.isBracket = false → Balanced [l]
  | block {ls : List Line} (indent indent' : String) :
      Balanced ls → Balanced (.enter indent :: ls ++ [.leave indent'])
  | append {ls more : List Line} : Balanced ls → Balanced more → Balanced (ls ++ more)

theorem openers_append_of_balanced {mid : List Line} (h : Balanced mid) (ls : List Line) :
    openers (ls ++ mid) = openers ls := by
  induction h generalizing ls with
  | nil => rw [List.append_nil]
  | single hl =>
    rw [openers_concat]
    revert hl
    rename_i l
    cases l <;> simp [Line.isBracket, Line.reopen]
  | @block mid indent indent' _ ih =>
    have hsplit : ls ++ (.enter indent :: mid ++ [.leave indent']) =
        ls ++ [.enter indent] ++ mid ++ [.leave indent'] := by simp
    rw [hsplit, openers_concat, ih, openers_concat]
    rfl
  | append _ _ ih₁ ih₂ => rw [← List.append_assoc, ih₂, ih₁]

theorem openers_enter_of_balanced {mid : List Line} (h : Balanced mid) (before : List Line)
    (indent : String) :
    openers (before ++ .enter indent :: mid) = before.length :: openers before := by
  have hsplit : before ++ .enter indent :: mid = before ++ [.enter indent] ++ mid := by simp
  rw [hsplit, openers_append_of_balanced h, openers_concat]
  rfl

theorem exists_balanced_of_openers {ls : List Line} {b : Nat} {outer : List Nat}
    (h : openers ls = b :: outer) : ∃ before indent mid,
      ls = before ++ .enter indent :: mid ∧ before.length = b ∧ Balanced mid ∧
        openers before = outer := by
  induction hn : ls.length using Nat.strongRecOn generalizing ls b outer with
  | _ n ih =>
  subst hn
  rcases List.eq_nil_or_concat' ls with rfl | ⟨ls, l, rfl⟩
  · cases h
  rw [openers_concat] at h
  have hlt : ls.length < (ls ++ [l]).length := by simp
  -- a line that is no bracket only lengthens what follows the first line of the block
  have hsame : l.isBracket = false → openers ls = b :: outer → ∃ before indent mid,
      ls ++ [l] = before ++ .enter indent :: mid ∧ before.length = b ∧ Balanced mid ∧
        openers before = outer := by
    intro hl ho
    obtain ⟨before, indent, mid, rfl, hb, hmid, hout⟩ := ih _ hlt ho rfl
    exact ⟨before, indent, mid ++ [l], by simp, hb, hmid.append (.single hl), hout⟩
  cases l with
  | enter indent =>
    rw [Line.reopen, List.cons.injEq] at h
    exact ⟨ls, indent, [], rfl, h.1, .nil, h.2⟩
  | leave indent' =>
    -- the line closes a block inside block `b`
    obtain ⟨c, hc⟩ : ∃ c, openers ls = c :: b :: outer := by
      cases ho : openers ls with
      | nil => rw [ho] at h; cases h
      | cons c rest => rw [ho] at h; exact ⟨c, congrArg (c :: ·) h⟩
    obtain ⟨before', indent₁, mid₁, rfl, -, hmid₁, hout₁⟩ := ih _ hlt hc rfl
    have hlt' : before'.length < (before' ++ Line.enter indent₁ :: mid₁ ++
        [Line.leave indent']).length := by simp
    obtain ⟨before, indent, mid, rfl, hb, hmid, hout⟩ := ih _ hlt' hout₁ rfl
    refine ⟨before, indent, mid ++ (.enter indent₁ :: mid₁ ++ [.leave indent']), by simp, hb,
      hmid.append (.block _ _ hmid₁), hout⟩
  | declare indent items => exact hsame rfl h
  | release indent names => exact hsame rfl h
  | plain => exact hsame rfl h

/-- **The innermost open block** is the one after whose first line the lines are balanced. -/
theorem innermost?_eq_some_iff {ls : List Line} {b : Nat} :
    innermost? ls = some b ↔ ∃ before indent mid,
      ls = before ++ .enter indent :: mid ∧ before.length = b ∧ Balanced mid := by
  refine ⟨fun h => ?_, fun h => ?_⟩
  · obtain ⟨outer, ho⟩ := List.head?_eq_some_iff.1 h
    obtain ⟨before, indent, mid, hls, hb, hmid, -⟩ := exists_balanced_of_openers ho
    exact ⟨before, indent, mid, hls, hb, hmid⟩
  · obtain ⟨before, indent, mid, rfl, rfl, hmid⟩ := h
    rw [innermost?, openers_enter_of_balanced hmid]
    rfl

theorem enter_of_mem_openers {ls : List Line} {b : Nat} (h : b ∈ openers ls) :
    ∃ indent, ls[b]? = some (.enter indent) := by
  induction ls using List.reverseRecOn with
  | nil => cases h
  | append_singleton ls l ih =>
    have hold : b ∈ openers ls → ∃ indent, (ls ++ [l])[b]? = some (.enter indent) := fun hb => by
      rw [List.getElem?_append_left (lt_of_mem_openers hb)]
      exact ih hb
    rw [openers_concat] at h
    cases l with
    | enter indent =>
      rcases List.mem_cons.1 h with rfl | h
      · exact ⟨indent, List.getElem?_concat_length ..⟩
      · exact hold h
    | leave indent => exact hold (List.mem_of_mem_tail h)
    | declare indent items => exact hold h
    | release indent names => exact hold h
    | plain => exact hold h

/-! ## Closing a block -/

/-- Line `e` closes the block that line `b` opens. -/
def Closes (ls : List Line) (b e : Nat) : Prop :=
  ∃ before indent mid indent' after,
    ls = before ++ .enter indent :: mid ++ .leave indent' :: after ∧ Balanced mid ∧
      before.length = b ∧ (before ++ .enter indent :: mid).length = e

theorem closes_iff {ls : List Line} {b e : Nat} :
    Closes ls b e ↔
      (∃ indent, ls[e]? = some (.leave indent)) ∧ innermost? (ls.take e) = some b := by
  refine ⟨fun h => ?_, fun h => ?_⟩
  · obtain ⟨before, indent, mid, indent', after, rfl, hmid, hb, rfl⟩ := h
    refine ⟨⟨indent', by simp⟩, ?_⟩
    rw [List.take_left]
    exact innermost?_eq_some_iff.2 ⟨before, indent, mid, rfl, hb, hmid⟩
  · obtain ⟨⟨indent', hl⟩, hi⟩ := h
    obtain ⟨before, indent, mid, htake, hb, hmid⟩ := innermost?_eq_some_iff.1 hi
    obtain ⟨hlt, hl⟩ := List.getElem?_eq_some_iff.1 hl
    refine ⟨before, indent, mid, indent', ls.drop (e + 1), ?_, hmid, hb, ?_⟩
    · rw [← htake, ← hl, ← List.drop_eq_getElem_cons hlt, List.take_append_drop]
    · rw [← htake, List.length_take, Nat.min_eq_left (Nat.le_of_lt hlt)]

end BlockSlots
