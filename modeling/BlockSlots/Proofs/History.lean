import BlockSlots.Proofs.Acts
import BlockSlots.Proofs.Outline
import Mathlib.Algebra.GroupWithZero.Nat

/-!
# The history of a block

The acts on a block that some lines of a document come to (`history`): those of the lines that
stand directly in the block, so that it is the innermost open block in front of them. The items of
declarations are numbered through the whole document; the number of an item is its record.

* `history_concat`: what one more line adds.
* `lt_declared_of_mem_records`, `pairwise_records`: the records of a block are those of items read
  so far, in increasing order.
* `mem_records_history_iff`, `eq_of_mem_records`: a record belongs to the block in which its item
  stands, and to no other.
-/

set_option autoImplicit false

namespace BlockSlots

/-- The number of names that a line declares. -/
def Line.declares : Line → Nat
  | .declare _ items => items.length
  | _ => 0

/-- The number of names that some lines declare. -/
def declared (ls : List Line) : Nat := (ls.map Line.declares).sum

/-- Binds the items of a declaration, the first one in record `ref`. -/
def bindActs (ref : Ref) : List ListItem → List Act
  | [] => []
  | item :: items => .bind ref item.name item.tag :: bindActs (ref + 1) items

/-- The acts of a line in whose front `ref` names were declared. -/
def Line.acts (ref : Ref) : Line → List Act
  | .declare _ items => bindActs ref items
  | .release _ names => names.map .unbind
  | _ => []

/-- The acts of the lines that stand directly in block `b`. -/
def history (ls : List Line) (b : Nat) : List Act :=
  ls.zipIdx.flatMap fun p =>
    if innermost? (ls.take p.2) = some b then p.1.acts (declared (ls.take p.2)) else []

theorem declared_append (ls more : List Line) :
    declared (ls ++ more) = declared ls + declared more := by
  simp [declared]

theorem declared_concat (ls : List Line) (l : Line) :
    declared (ls ++ [l]) = declared ls + l.declares := by
  simp [declared]

/-- What a list gives in which each element gives something after those in front of it. -/
theorem flatMap_prefixes_concat {α β : Type} (f : List α → α → List β) (ls : List α) (l : α) :
    ((ls ++ [l]).zipIdx.flatMap fun p => f ((ls ++ [l]).take p.2) p.1) =
      (ls.zipIdx.flatMap fun p => f (ls.take p.2) p.1) ++ f ls l := by
  have hold : ∀ p ∈ ls.zipIdx, f ((ls ++ [l]).take p.2) p.1 = f (ls.take p.2) p.1 := by
    intro p hp
    have hlt := List.snd_lt_of_mem_zipIdx hp
    rw [List.take_append_of_le_length (by omega)]
  rw [List.zipIdx_append, List.flatMap_append, List.flatMap_congr hold]
  simp

theorem history_concat (ls : List Line) (l : Line) (b : Nat) :
    history (ls ++ [l]) b =
      history ls b ++ if innermost? ls = some b then l.acts (declared ls) else [] :=
  flatMap_prefixes_concat
    (fun before l => if innermost? before = some b then l.acts (declared before) else []) ls l

theorem history_isPrefix (ls more : List Line) (b : Nat) :
    history ls b <+: history (ls ++ more) b := by
  induction more using List.reverseRecOn with
  | nil => simp
  | append_singleton more l ih =>
    rw [← List.append_assoc, history_concat]
    exact ih.trans (List.prefix_append _ _)

theorem history_take_isPrefix (ls : List Line) (n b : Nat) :
    history (ls.take n) b <+: history ls b := by
  have h := history_isPrefix (ls.take n) (ls.drop n) b
  rwa [List.take_append_drop] at h

/-- A block has no history before its first line. -/
theorem history_eq_nil {ls : List Line} {b : Nat} (h : ls.length ≤ b) : history ls b = [] := by
  induction ls using List.reverseRecOn with
  | nil => rfl
  | append_singleton ls l ih =>
    rw [List.length_append, List.length_singleton] at h
    rw [history_concat, ih (by omega), if_neg fun hi => ?_, List.append_nil]
    have := lt_of_innermost? hi
    omega

/-! ## The records of a block -/

/-- The record that an act binds a name in. -/
def Act.ref? : Act → Option Ref
  | .bind ref _ _ => some ref
  | .unbind _ => none

/-- The records of acts, in their order. -/
def records (acts : List Act) : List Ref := acts.filterMap Act.ref?

theorem records_append (acts more : List Act) :
    records (acts ++ more) = records acts ++ records more :=
  List.filterMap_append ..

theorem mem_records {acts : List Act} {r : Ref} :
    r ∈ records acts ↔ ∃ name tag, .bind r name tag ∈ acts := by
  rw [records, List.mem_filterMap]
  refine ⟨fun h => ?_, fun h => ?_⟩
  · obtain ⟨a, ha, hr⟩ := h
    cases a with
    | bind ref name tag => cases hr; exact ⟨name, tag, ha⟩
    | unbind name => cases hr
  · obtain ⟨name, tag, ha⟩ := h
    exact ⟨_, ha, rfl⟩

theorem records_bindActs (ref : Ref) (items : List ListItem) :
    records (bindActs ref items) = List.range' ref items.length := by
  induction items generalizing ref with
  | nil => rfl
  | cons item items ih =>
    rw [List.length_cons, List.range'_succ, ← ih]
    rfl

theorem records_acts (l : Line) (ref : Ref) :
    records (l.acts ref) = List.range' ref l.declares := by
  cases l with
  | declare indent items => exact records_bindActs ref items
  | release indent names => simp [Line.acts, Line.declares, records, Act.ref?]
  | enter indent => rfl
  | leave indent => rfl
  | plain => rfl

theorem lt_declared_of_mem_records {ls : List Line} {b : Nat} {r : Ref}
    (h : r ∈ records (history ls b)) : r < declared ls := by
  induction ls using List.reverseRecOn with
  | nil => cases h
  | append_singleton ls l ih =>
    rw [history_concat, records_append, List.mem_append] at h
    rw [declared_concat]
    rcases h with h | h
    · exact Nat.lt_add_right _ (ih h)
    · split at h
      · rw [records_acts, List.mem_range'_1] at h
        exact h.2
      · cases h

/-- The records of a block stand in increasing order. -/
theorem pairwise_records (ls : List Line) (b : Nat) :
    (records (history ls b)).Pairwise (· < ·) := by
  induction ls using List.reverseRecOn with
  | nil => exact .nil
  | append_singleton ls l ih =>
    rw [history_concat, records_append, List.pairwise_append]
    refine ⟨ih, ?_, fun r hr s hs => ?_⟩
    · split
      · rw [records_acts]
        exact List.pairwise_lt_range'
      · exact .nil
    · split at hs
      · rw [records_acts, List.mem_range'_1] at hs
        exact Nat.lt_of_lt_of_le (lt_declared_of_mem_records hr) hs.1
      · cases hs

/-- The places where the records of a block are declared. -/
theorem mem_records_history_iff {ls : List Line} {b : Nat} {r : Ref} :
    r ∈ records (history ls b) ↔ ∃ m l, ls[m]? = some l ∧ innermost? (ls.take m) = some b ∧
      r ∈ List.range' (declared (ls.take m)) l.declares := by
  refine ⟨fun h => ?_, fun h => ?_⟩
  · obtain ⟨a, ha, hr⟩ := List.mem_filterMap.1 h
    obtain ⟨⟨l, m⟩, hm, ha⟩ := List.mem_flatMap.1 ha
    split at ha
    · next hi =>
      refine ⟨m, l, List.mem_zipIdx_iff_getElem?.1 hm, hi, ?_⟩
      rw [← records_acts]
      exact List.mem_filterMap.2 ⟨a, ha, hr⟩
    · cases ha
  · obtain ⟨m, l, hm, hi, hr⟩ := h
    rw [← records_acts] at hr
    obtain ⟨a, ha, hr⟩ := List.mem_filterMap.1 hr
    refine List.mem_filterMap.2 ⟨a, List.mem_flatMap.2 ⟨⟨l, m⟩, ?_, ?_⟩, hr⟩
    · exact List.mem_zipIdx_iff_getElem?.2 hm
    · rw [if_pos hi]
      exact ha

/-- A record belongs to one block. -/
theorem eq_of_mem_records {ls : List Line} {b c : Nat} {r : Ref}
    (hb : r ∈ records (history ls b)) (hc : r ∈ records (history ls c)) : b = c := by
  induction ls using List.reverseRecOn with
  | nil => cases hb
  | append_singleton ls l ih =>
    rw [history_concat, records_append, List.mem_append] at hb hc
    have hnew : ∀ {b'}, r ∈ records (if innermost? ls = some b' then l.acts (declared ls) else []) →
        innermost? ls = some b' ∧ declared ls ≤ r := by
      intro b' hr
      split at hr
      · next hi =>
        rw [records_acts, List.mem_range'_1] at hr
        exact ⟨hi, hr.1⟩
      · cases hr
    rcases hb with hb | hb <;> rcases hc with hc | hc
    · exact ih hb hc
    · exact absurd (lt_declared_of_mem_records hb) (Nat.not_lt.2 (hnew hc).2)
    · exact absurd (lt_declared_of_mem_records hc) (Nat.not_lt.2 (hnew hb).2)
    · exact Option.some.inj ((hnew hb).1.symm.trans (hnew hc).1)

theorem lt_of_isPrefix {ls : List Line} {b : Nat} {before : List Act} {a : Act} {r s : Ref}
    (h : before ++ [a] <+: history ls b) (hr : r ∈ records before) (hs : a.ref? = some s) :
    r < s := by
  obtain ⟨after, ha⟩ := h
  have hp := pairwise_records ls b
  rw [← ha, records_append, records_append, List.pairwise_append, List.pairwise_append] at hp
  refine hp.1.2.2 r hr s ?_
  rw [records, List.filterMap_cons_some hs]
  exact List.mem_cons_self

/-- Of two declarations in a block, that of the smaller record comes first. -/
theorem bind_prefix_of_lt {ls : List Line} {b : Nat} {before₁ before₂ : List Act} {r₁ r₂ : Ref}
    {name₁ tag₁ name₂ tag₂ : String} (h₁ : before₁ ++ [.bind r₁ name₁ tag₁] <+: history ls b)
    (h₂ : before₂ ++ [.bind r₂ name₂ tag₂] <+: history ls b) (hlt : r₁ < r₂) :
    before₁ ++ [.bind r₁ name₁ tag₁] <+: before₂ := by
  rcases List.prefix_or_prefix_of_prefix h₁ h₂ with h | h
  · rcases List.prefix_concat_iff.1 h with heq | h
    · have hbind := (List.append_inj' heq rfl).2
      simp only [List.cons.injEq, Act.bind.injEq] at hbind
      exact absurd hbind.1.1 (Nat.ne_of_lt hlt)
    · exact h
  · rcases List.prefix_concat_iff.1 h with heq | h
    · have hbind := (List.append_inj' heq rfl).2
      simp only [List.cons.injEq, Act.bind.injEq] at hbind
      exact absurd hbind.1.1 (Nat.ne_of_gt hlt)
    · have hmem : r₂ ∈ records before₁ := mem_records.2 ⟨name₂, tag₂, h.subset (by simp)⟩
      exact absurd (lt_of_isPrefix h₁ hmem rfl) (Nat.lt_asymm hlt)

theorem exists_prefix_of_mem_records {acts : List Act} {r : Ref} (h : r ∈ records acts) :
    ∃ before name tag, before ++ [.bind r name tag] <+: acts := by
  obtain ⟨name, tag, hm⟩ := mem_records.1 h
  obtain ⟨before, after, rfl⟩ := List.append_of_mem hm
  exact ⟨before, name, tag, after, by simp⟩

theorem mem_records_of_isPrefix {acts before : List Act} {r : Ref} {name tag : String}
    (h : before ++ [.bind r name tag] <+: acts) : r ∈ records acts :=
  mem_records.2 ⟨name, tag, h.subset (by simp)⟩

theorem bind_mem_of_standing {acts : List Act} {name : String} {r : Ref}
    (h : r ∈ standing name acts) : ∃ tag, .bind r name tag ∈ acts := by
  induction acts using List.reverseRecOn with
  | nil => cases h
  | append_singleton acts a ih =>
    have hold : r ∈ standing name acts → ∃ tag, .bind r name tag ∈ acts ++ [a] := fun h =>
      let ⟨tag, hm⟩ := ih h
      ⟨tag, List.mem_append_left _ hm⟩
    rw [standing_concat] at h
    cases a with
    | bind ref n tag =>
      rw [Act.match] at h
      split at h
      · next hn =>
        rcases List.mem_cons.1 h with rfl | h
        · exact ⟨tag, by simp [hn]⟩
        · exact hold h
      · exact hold h
    | unbind n =>
      rw [Act.match] at h
      split at h
      · exact hold (List.mem_of_mem_tail h)
      · exact hold h

theorem mem_records_of_standing {acts : List Act} {name : String} {r : Ref}
    (h : r ∈ standing name acts) : r ∈ records acts :=
  let ⟨tag, hm⟩ := bind_mem_of_standing h
  mem_records.2 ⟨name, tag, hm⟩

end BlockSlots
