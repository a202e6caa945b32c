import BlockSlots.Proofs.Insertion
import BlockSlots.Proofs.LineEndings

/-!
# Blocks are compositional

A complete block can be put anywhere into a document, and any document to where no block is open.
The whole is accepted if both are, and is written as the two of them are alone: nothing in either
depends on the other.

* `embeds_mid`, `embeds_around`: both parts stand in the whole as they are alone.
* `exists_ofLines_insert`: when the whole is accepted.
* `writtenLines_insert`: how it is written.
* `ofText_insert`: both, for texts.
-/

set_option autoImplicit false

namespace BlockSlots

open Text

/-! ## What can be put in -/

/-- A complete block can be put anywhere. -/
theorem insertable_of_closes {before mid : List Line} (h : Closes mid 0 (mid.length - 1)) :
    Insertable before mid := by
  obtain ⟨front, indent, inner, indent', rest, rfl, hinner, hfront, hend⟩ := h
  obtain rfl := List.length_eq_zero_iff.1 hfront
  have hrest : rest = [] := by simpa using hend
  subst hrest
  show Insertable before (.enter indent :: inner ++ [.leave indent'])
  have hbalanced : Balanced (.enter indent :: inner ++ [.leave indent']) :=
    .block indent indent' hinner
  refine ⟨proper_of_balanced hbalanced, openers_append_of_balanced hbalanced [], ?_⟩
  intro k l hk ho
  cases k with
  | zero =>
    cases hk
    exact .inr ⟨indent, rfl⟩
  | succ k =>
    have hlt := (List.getElem?_eq_some_iff.1 hk).1
    rw [List.length_append, List.length_cons, List.length_singleton] at hlt
    exact absurd ho
      (openers_take_block_ne_nil (proper_of_balanced hinner) (by omega) indent indent')

theorem proper_of_ofLines {settings : Settings} {lines : List String}
    (h : ∃ p, Plan.ofLines settings lines = .ok p) : Proper (outline lines) := by
  intro k indent hk
  rw [outline, List.getElem?_map, Option.map_eq_some_iff] at hk
  obtain ⟨line, hline, hread⟩ := hk
  obtain ⟨l, hl, hadmitted⟩ := (Plan.exists_ofLines_iff.1 h).2 k line hline
  rw [Line.read_of_ofString hl] at hread
  subst hread
  exact fun ho => hadmitted (List.head?_eq_none_iff.2 ho)

/-- An accepted document can be put to where no block is open. -/
theorem insertable_of_ofLines {settings : Settings} {before : List Line} {mid : List String}
    (ho : openers before = []) (h : ∃ p, Plan.ofLines settings mid = .ok p) :
    Insertable before (outline mid) :=
  ⟨proper_of_ofLines h, (Plan.exists_ofLines_iff.1 h).1, fun _ _ _ _ => .inl ho⟩

/-! ## Embedded documents -/

section
variable {before mid : List String}

theorem outline_insert (before mid after : List String) :
    outline (before ++ mid ++ after) = outline before ++ outline mid ++ outline after := by
  rw [outline_append, outline_append]

/-- **The lines put in** stand in the whole document as they are alone. -/
theorem embeds_mid (h : Insertable (outline before) (outline mid)) (after : List String) :
    Embeds (before.length + ·) (declared (outline before) + ·) mid (before ++ mid ++ after) := by
  have hmid := length_outline mid
  refine { injective := fun _ _ he => Nat.add_left_cancel he,
           ref_injective := fun _ _ he => Nat.add_left_cancel he, getElem? := getElem?_insert_mid,
           mirrors := fun hk hl => ?_, history_eq := fun hb => ?_,
           declared_add := fun hk i _ => ?_, onto := fun hb hi _ => ?_ }
  · rw [outline_insert, ← length_outline before]
    exact h.mirrors_mid _ hk hl
  · rw [outline_insert, ← length_outline before]
    exact h.history_mid (by omega) _
  · have hlt := (List.getElem?_eq_some_iff.1 hk).1
    rw [outline_insert, ← length_outline before, take_insert_mid (Nat.le_of_lt hlt),
      declared_append, Nat.add_assoc]
  · rw [outline_insert, ← length_outline before] at hi
    have hlt := h.lt_of_innermost?_mid (by omega) hi
    rw [length_outline] at hlt
    exact ⟨_, (Nat.add_sub_cancel' (Nat.le_of_lt hlt.1)).symm, by omega⟩

/-- **The lines around** stand in the whole document as they are without the lines put in. -/
theorem embeds_around (h : Insertable (outline before) (outline mid)) (after : List String) :
    Embeds (shiftFrom before.length mid.length)
      (shiftFrom (declared (outline before)) (declared (outline mid))) (before ++ after)
      (before ++ mid ++ after) := by
  refine { injective := shiftFrom_injective _ _, ref_injective := shiftFrom_injective _ _,
           getElem? := getElem?_insert_around mid, mirrors := fun {k _} _ _ => ?_,
           history_eq := fun _ => ?_, declared_add := fun hk i hi => ?_,
           onto := fun {b n} _ hi hplain => ?_ }
  · rw [outline_insert, outline_append, ← length_outline before, ← length_outline mid]
    exact h.mirrors_around _ k
  · rw [outline_insert, outline_append, ← length_outline before, ← length_outline mid]
    exact h.history_insert _ _
  · rw [outline_append] at hk
    rw [outline_insert, outline_append, ← length_outline before, ← length_outline mid]
    exact declared_around _ _ _ hk hi
  · rw [outline_insert, ← length_outline before, ← length_outline mid] at hi
    rw [outline_insert] at hplain
    rcases getElem?_insert_cases hplain with ⟨k, rfl, hk⟩ | ⟨k, rfl, hk⟩
    · have hlt := (List.getElem?_eq_some_iff.1 hk).1
      rw [← outline_append, length_outline] at hlt
      exact ⟨k, by rw [length_outline, length_outline], hlt⟩
    · exact absurd hi (h.innermost?_mid_ne _ hk (by simp) _)

end

/-! ## Plans -/

namespace Plan

variable {settings : Settings} {a b c : List String}

/-- The whole document is accepted if both parts are. -/
theorem exists_ofLines_insert (h : Insertable (outline a) (outline b)) :
    (∃ w, ofLines settings (a ++ b ++ c) = .ok w) ↔
      (∃ p, ofLines settings (a ++ c) = .ok p) ∧ ∃ q, ofLines settings b = .ok q := by
  have hmid := embeds_mid h c
  have haround := embeds_around h c
  have hopen : openers (outline (a ++ b ++ c)) = [] ↔ openers (outline (a ++ c)) = [] := by
    rw [outline_append, outline_append, h.openers_insert, List.map_eq_nil_iff, outline_append]
  rw [exists_ofLines_iff, exists_ofLines_iff, exists_ofLines_iff, hopen]
  refine ⟨fun hx => ?_, fun hx => ?_⟩
  · obtain ⟨ho, hlines⟩ := hx
    refine ⟨⟨ho, fun k line hk => ?_⟩, h.closed, fun k line hk => ?_⟩
    · exact (haround.admits_iff hk).1 (hlines _ line (haround.getElem? hk))
    · exact (hmid.admits_iff hk).1 (hlines _ line (hmid.getElem? hk))
  · obtain ⟨⟨ho, haround'⟩, -, hmid'⟩ := hx
    refine ⟨ho, fun n line hn => ?_⟩
    rcases getElem?_insert_cases hn with ⟨k, rfl, hk⟩ | ⟨k, rfl, hk⟩
    · exact (haround.admits_iff hk).2 (haround' k line hk)
    · exact (hmid.admits_iff hk).2 (hmid' k line hk)

theorem length_writtenLines {lines : List String} {p : Plan}
    (h : ofLines settings lines = .ok p) (g : Dialect) :
    (p.writtenLines g).length = lines.length := by
  rw [writtenLines, List.length_map, ← size_script h]
  exact Array.length_toList

/-- The whole document is written as the parts are alone. -/
theorem writtenLines_insert (h : Insertable (outline a) (outline b)) {p q w : Plan}
    (hp : ofLines settings (a ++ c) = .ok p) (hq : ofLines settings b = .ok q)
    (hw : ofLines settings (a ++ b ++ c) = .ok w) (g : Dialect) :
    w.writtenLines g =
      (p.writtenLines g).take a.length ++ q.writtenLines g ++ (p.writtenLines g).drop a.length := by
  have hlenp := length_writtenLines hp g
  have hlenq := length_writtenLines hq g
  have hlenw := length_writtenLines hw g
  rw [List.length_append] at hlenp
  rw [List.length_append, List.length_append] at hlenw
  apply eq_insert
  · omega
  · omega
  · intro k hk
    rw [hlenq]
    exact (embeds_around h c).getElem?_writtenLines hp hw g (by rw [List.length_append]; omega)
  · intro k hk
    exact (embeds_mid h c).getElem?_writtenLines hq hw g (by omega)

/-- **Blocks are compositional.** Let `b` be a complete block, or let no block be open after `a`. If
the lines around `b` and `b` alone are accepted, so is the whole, and it is written as the two of
them are alone. If a complete block is accepted somewhere, it is accepted alone, and what is around
it is accepted without it. -/
theorem ofText_insert (hlines : ∀ line ∈ a ++ b ++ c, '\r' ∉ line.toList ∧ '\n' ∉ line.toList)
    (hac : a ++ c ≠ []) (hb : b ≠ [])
    (hplace : Closes (outline b) 0 (b.length - 1) ∨ openers (outline a) = []) :
    (∀ p q, ofText settings ("\n".intercalate (a ++ c)) = .ok p →
      ofText settings ("\n".intercalate b) = .ok q →
      ∃ w, ofText settings ("\n".intercalate (a ++ b ++ c)) = .ok w ∧ ∀ g, w.writtenLines g =
        (p.writtenLines g).take a.length ++ q.writtenLines g ++ (p.writtenLines g).drop a.length) ∧
    (Closes (outline b) 0 (b.length - 1) →
      ∀ w, ofText settings ("\n".intercalate (a ++ b ++ c)) = .ok w →
      (∃ p, ofText settings ("\n".intercalate (a ++ c)) = .ok p) ∧
        ∃ q, ofText settings ("\n".intercalate b) = .ok q) := by
  have hmem : ∀ line, line ∈ a ++ c ∨ line ∈ b → line ∈ a ++ b ++ c := by
    intro line hline
    simp only [List.mem_append] at hline ⊢
    tauto
  have habc : a ++ b ++ c ≠ [] := by
    intro hnil
    simp only [List.append_eq_nil_iff] at hnil
    exact hb hnil.1.2
  have hblock : Closes (outline b) 0 (b.length - 1) → Insertable (outline a) (outline b) := by
    intro hcloses
    rw [← length_outline b] at hcloses
    exact insertable_of_closes hcloses
  simp only [ofText]
  rw [lines_intercalate hac fun line hl => hlines line (hmem line (.inl hl)),
    lines_intercalate hb fun line hl => hlines line (hmem line (.inr hl)),
    lines_intercalate habc hlines]
  refine ⟨fun p q hp hq => ?_, fun hcloses w hw => ?_⟩
  · have h : Insertable (outline a) (outline b) := by
      rcases hplace with hcloses | ho
      · exact hblock hcloses
      · exact insertable_of_ofLines ho ⟨q, hq⟩
    obtain ⟨w, hw⟩ := (exists_ofLines_insert h).2 ⟨⟨p, hp⟩, q, hq⟩
    exact ⟨w, hw, writtenLines_insert h hp hq hw⟩
  · exact (exists_ofLines_insert (hblock hcloses)).1 ⟨w, hw⟩

theorem ofText_insert_sample : ∃ p q w,
    ofText {} "~begin\n~def x:int\nx;\n~end" = .ok p ∧
    ofText {} "~begin\n~def x:float\nx;\n~end" = .ok q ∧
    ofText {} "~begin\n~def x:int\n~begin\n~def x:float\nx;\n~end\nx;\n~end" = .ok w ∧
    ∀ g, w.writtenLines g =
      (p.writtenLines g).take 2 ++ q.writtenLines g ++ (p.writtenLines g).drop 2 := by
  have hi : innermost? ((outline ["~begin", "~def x:float", "x;", "~end"]).take 3) = some 0 := by
    decide +kernel
  have hcloses : Closes (outline ["~begin", "~def x:float", "x;", "~end"]) 0 3 :=
    closes_iff.2 ⟨⟨"", by decide +kernel⟩, hi⟩
  have hok : (ofText {} "~begin\n~def x:int\nx;\n~end").isOk = true := by decide +kernel
  have hok' : (ofText {} "~begin\n~def x:float\nx;\n~end").isOk = true := by decide +kernel
  cases hp : ofText {} "~begin\n~def x:int\nx;\n~end" with
  | error e => rw [hp] at hok; cases hok
  | ok p =>
    cases hq : ofText {} "~begin\n~def x:float\nx;\n~end" with
    | error e => rw [hq] at hok'; cases hok'
    | ok q =>
      obtain ⟨w, hw, hwritten⟩ :=
        (@ofText_insert {} ["~begin", "~def x:int"] ["~begin", "~def x:float", "x;", "~end"]
          ["x;", "~end"] (by decide +kernel) (by decide) (by decide) (.inl hcloses)).1 p q hp hq
      exact ⟨p, q, w, rfl, rfl, hw, hwritten⟩

end Plan

end BlockSlots
