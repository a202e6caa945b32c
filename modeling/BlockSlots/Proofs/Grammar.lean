import BlockSlots.Line.Reader
import BlockSlots.Proofs.ItemLists
import Mathlib.Data.List.Basic

/-!
# The grammar of directives

How a directive is written (`Line.Spells`): white space, a tilde, white space, the word of a mark,
and, where the mark has one, a list in white space. A line is read as a directive exactly if it is
written so, and in one way only: what the word of a mark introduces (`Introduces`) is fixed by the
line, so it does not matter in which order the marks are tried.

* `Introduces.ofChars_eq`, `ofChars_cases`: a line that a mark introduces is read by its tail, and
  every other one is plain.
* `ofTail_of_spellsTail`, `spellsTail_of_ofTail`: the tails that are read as directives.
* `spells_iff`: the grammar.
* `indent_of_ofString`, `isName_of_declare`: what a directive holds.
* `recognize?_eq_some_iff`: what a single mark makes of a line.
* `ofString_eq_ok_iff_spells`: all of it, for a line.
-/

set_option autoImplicit false

namespace BlockSlots

open Text

/-! ## The word of a directive -/

theorem Mark.split?_append (mark : Mark) (tail : List Char) :
    split? (mark.word.toList ++ tail) = some (mark, tail) := by
  cases mark <;> rfl

theorem Mark.append_of_split? {cs tail : List Char} {mark : Mark}
    (h : split? cs = some (mark, tail)) : mark.word.toList ++ tail = cs := by
  obtain ⟨m, -, hm⟩ := List.exists_of_findSome?_eq_some h
  obtain ⟨rest, hrest, heq⟩ := Option.map_eq_some_iff.1 hm
  cases heq
  exact List.append_eq_of_isPrefixOf?_eq_some hrest

theorem Mark.bare_word (mark : Mark) (tail : List Char) : Bare (mark.word.toList ++ tail) := by
  cases mark <;> rintro c ⟨⟩ <;> decide

/-- A line is white space, a tilde, white space and the word of `mark`, which ends in front of
`tail`. -/
structure Introduces (mark : Mark) (indent tail cs : List Char) : Prop where
  blank : Blank indent
  ends : endsWord tail = true
  eq : ∃ gap, Blank gap ∧ cs = indent ++ '~' :: (gap ++ (mark.word.toList ++ tail))

section
variable {mark mark' : Mark} {indent indent' tail tail' cs : List Char}

theorem bare_tilde (cs : List Char) : Bare ('~' :: cs) := by
  rintro c ⟨⟩
  decide

theorem Introduces.split (h : Introduces mark indent tail cs) :
    cs.takeWhile isBlank = indent ∧ ∃ rest, cs.dropWhile isBlank = '~' :: rest ∧
      rest.dropWhile isBlank = mark.word.toList ++ tail := by
  obtain ⟨gap, hgap, rfl⟩ := h.eq
  refine ⟨takeWhile_blank_append h.blank (bare_tilde _), _,
    dropWhile_blank_append h.blank (bare_tilde _), ?_⟩
  exact dropWhile_blank_append hgap (mark.bare_word tail)

theorem introduces_iff : Introduces mark indent tail cs ↔
    cs.takeWhile isBlank = indent ∧ endsWord tail = true ∧
      ∃ rest, cs.dropWhile isBlank = '~' :: rest ∧
        rest.dropWhile isBlank = mark.word.toList ++ tail := by
  constructor
  · intro h
    obtain ⟨hindent, hrest⟩ := h.split
    exact ⟨hindent, h.ends, hrest⟩
  · rintro ⟨rfl, hends, rest, hdrop, hword⟩
    refine ⟨blank_takeWhile cs, hends, rest.takeWhile isBlank, blank_takeWhile rest, ?_⟩
    rw [← hword, List.takeWhile_append_dropWhile, ← hdrop, List.takeWhile_append_dropWhile]

/-- A line is introduced in at most one way. -/
theorem Introduces.unique (h : Introduces mark indent tail cs)
    (h' : Introduces mark' indent' tail' cs) : mark = mark' ∧ indent = indent' ∧ tail = tail' := by
  obtain ⟨rfl, rest, hdrop, hword⟩ := h.split
  obtain ⟨rfl, rest', hdrop', hword'⟩ := h'.split
  rw [hdrop] at hdrop'
  cases hdrop'
  have hsplit := mark.split?_append tail
  rw [← hword, hword', Mark.split?_append] at hsplit
  cases hsplit
  exact ⟨rfl, rfl, rfl⟩

/-- A line is read by what follows the word of its mark. -/
theorem Introduces.ofChars_eq (h : Introduces mark indent tail cs) :
    Line.ofChars cs = Line.ofTail mark (String.ofList indent) tail := by
  obtain ⟨rfl, rest, hdrop, hword⟩ := h.split
  simp only [Line.ofChars, hdrop, hword, Mark.split?_append, h.ends, if_true]

/-- A line that no mark introduces is plain. -/
theorem Line.ofChars_cases (cs : List Char) :
    (∃ mark indent tail, Introduces mark indent tail cs) ∨ ofChars cs = .ok .plain := by
  unfold ofChars
  split
  · next rest hdrop =>
    split
    · next mark tail hsplit =>
      split
      · next hends =>
        have hword := (Mark.append_of_split? hsplit).symm
        exact .inl ⟨mark, _, tail, introduces_iff.2 ⟨rfl, hends, rest, hdrop, hword⟩⟩
      · exact .inr rfl
    · exact .inr rfl
  · exact .inr rfl

end

/-! ## How a directive is written -/

namespace Line

/-- What follows the word of a directive: nothing but white space, or a list in white space. A list
that does not start with a dollar sign is set off from the word. -/
inductive SpellsTail (indent : String) : Line → Mark → List Char → Prop
  | enter {tail : List Char} (htail : Blank tail) : SpellsTail indent (.enter indent) .enter tail
  | leave {tail : List Char} (htail : Blank tail) : SpellsTail indent (.leave indent) .leave tail
  | declare {items : List ListItem} {gap list after : List Char} (hgap : Blank gap)
      (hset : gap ≠ [] ∨ list.head? = some '$') (hitems : SpellsItems items list)
      (hafter : Blank after) :
      SpellsTail indent (.declare indent items) .declare (gap ++ (list ++ after))
  | release {names : List String} {gap list after : List Char} (hgap : Blank gap)
      (hset : gap ≠ [] ∨ list.head? = some '$') (hnames : SpellsItems (names.map (⟨·, none⟩)) list)
      (hafter : Blank after) :
      SpellsTail indent (.release indent names) .release (gap ++ (list ++ after))

/-- How a directive is written: white space, a tilde, white space, the word of its mark and what
follows the word. -/
inductive Spells (l : Line) : List Char → Prop
  | mk {mark : Mark} {indent : String} {gap tail : List Char} (hindent : Blank indent.toList)
      (hgap : Blank gap) (htail : SpellsTail indent l mark tail) :
      Spells l (indent.toList ++ '~' :: (gap ++ (mark.word.toList ++ tail)))

section
variable {mark : Mark} {indent : String} {tail gap list after : List Char} {l : Line}
  {items : List ListItem} {typed : Bool}

theorem endsWord_of_blank {tail : List Char} (h : Blank tail) : endsWord tail = true := by
  cases tail with
  | nil => rfl
  | cons c tail => rw [endsWord, isWordChar_of_isBlank (h c List.mem_cons_self), Bool.not_false]

/-- A word ends in front of a list that is set off from it, or starts with a dollar sign. -/
theorem endsWord_append_iff (hgap : Blank gap) (h : SpellsItems items list) :
    endsWord (gap ++ (list ++ after)) = true ↔ gap ≠ [] ∨ list.head? = some '$' := by
  cases gap with
  | cons c gap =>
    rw [List.cons_append, endsWord, isWordChar_of_isBlank (hgap c List.mem_cons_self)]
    simp
  | nil =>
    have hstart := h.startsName
    obtain ⟨c, list, rfl⟩ := List.exists_cons_of_ne_nil h.ne_nil
    rw [List.nil_append, List.cons_append, endsWord, Bool.not_eq_true',
      isWordChar_eq_false_iff (isNamePart_of_isNameStart hstart)]
    simp

/-- **A list is read** where it is written in white space. -/
theorem readList_trim_eq_ok_iff :
    '\n' ∉ trim tail ∧ readList mark typed (trim tail) = .ok items ↔
      (∃ gap list after, Blank gap ∧ SpellsItems items list ∧ Blank after ∧
        tail = gap ++ (list ++ after)) ∧
      ∀ item ∈ items, item.tag?.isSome = true → typed = true := by
  have hread : ∀ {cs : List Char}, cs ≠ [] → (readList mark typed cs = .ok items ↔
      readItems typed cs = .ok items) := by
    intro cs hne
    rw [readList, if_neg (by simpa using hne)]
    cases readItems typed cs <;> simp [Except.mapError]
  constructor
  · rintro ⟨hn, h⟩
    obtain ⟨gap, after, hgap, hafter, htail, -, hrev⟩ := exists_trim tail
    have hne : trim tail ≠ [] := by
      intro hnil
      rw [hnil] at h
      cases h
    obtain ⟨hitems, htyped⟩ := (readItems_eq_ok_iff hne hn hrev).1 ((hread hne).1 h)
    exact ⟨⟨gap, trim tail, after, hgap, hitems, hafter, htail⟩, htyped⟩
  · rintro ⟨⟨gap, list, after, hgap, hitems, hafter, rfl⟩, htyped⟩
    rw [hitems.trim_eq hgap hafter]
    exact ⟨hitems.not_mem, (hread hitems.ne_nil).2 (readItems_of_spellsItems hitems htyped)⟩

theorem SpellsTail.endsWord (h : SpellsTail indent l mark tail) : endsWord tail = true := by
  cases h with
  | enter htail => exact endsWord_of_blank htail
  | leave htail => exact endsWord_of_blank htail
  | declare hgap hset hitems => exact (endsWord_append_iff hgap hitems).2 hset
  | release hgap hset hnames => exact (endsWord_append_iff hgap hnames).2 hset

theorem ne_plain_of_spellsTail (h : SpellsTail indent l mark tail) : l ≠ .plain := by
  cases h <;> simp

theorem ofTail_of_spellsTail (h : SpellsTail indent l mark tail) :
    ofTail mark indent tail = .ok l := by
  cases h with
  | enter htail => rw [ofTail, if_pos (all_isBlank_iff.2 htail)]
  | leave htail => rw [ofTail, if_pos (all_isBlank_iff.2 htail)]
  | @declare items gap list after hgap hset hitems hafter =>
    obtain ⟨hn, hread⟩ := readList_trim_eq_ok_iff.2
      ⟨⟨gap, list, after, hgap, hitems, hafter, rfl⟩, fun _ _ _ => rfl⟩
    rw [ofTail, if_neg hn, hread]
    rfl
  | @release names gap list after hgap hset hnames hafter =>
    obtain ⟨hn, hread⟩ := readList_trim_eq_ok_iff.2
      ⟨⟨gap, list, after, hgap, hnames, hafter, rfl⟩, fun item hitem hsome => by
        obtain ⟨name, -, rfl⟩ := List.mem_map.1 hitem
        cases hsome⟩
    rw [ofTail, if_neg hn, hread]
    simp [Except.map, Function.comp_def]

/-- A directive with a list is one whose list can be read, on a single line. -/
theorem exists_items_of_readList {f : List ListItem → Line} (hl : l ≠ .plain)
    (h : (if '\n' ∈ trim tail then .ok .plain else (readList mark typed (trim tail)).map f) =
      .ok l) :
    ∃ items, l = f items ∧ '\n' ∉ trim tail ∧ readList mark typed (trim tail) = .ok items := by
  split at h
  · cases h
    exact absurd rfl hl
  · next hn =>
    cases hread : readList mark typed (trim tail) with
    | error e =>
      rw [hread] at h
      cases h
    | ok items =>
      rw [hread] at h
      cases h
      exact ⟨items, rfl, hn, rfl⟩

/-- A tail that is read as a directive is written so. -/
theorem spellsTail_of_ofTail (h : ofTail mark indent tail = .ok l) (hl : l ≠ .plain)
    (hends : Text.endsWord tail = true) : SpellsTail indent l mark tail := by
  cases mark with
  | enter =>
    simp only [ofTail, Except.ok.injEq] at h
    split at h
    · next hblank => exact h ▸ .enter (all_isBlank_iff.1 hblank)
    · exact absurd h.symm hl
  | leave =>
    simp only [ofTail, Except.ok.injEq] at h
    split at h
    · next hblank => exact h ▸ .leave (all_isBlank_iff.1 hblank)
    · exact absurd h.symm hl
  | declare =>
    obtain ⟨items, rfl, hread⟩ := exists_items_of_readList hl h
    obtain ⟨⟨gap, list, after, hgap, hitems, hafter, rfl⟩, -⟩ := readList_trim_eq_ok_iff.1 hread
    exact .declare hgap ((endsWord_append_iff hgap hitems).1 hends) hitems hafter
  | release =>
    obtain ⟨items, rfl, hread⟩ := exists_items_of_readList hl h
    obtain ⟨⟨gap, list, after, hgap, hitems, hafter, rfl⟩, htyped⟩ :=
      readList_trim_eq_ok_iff.1 hread
    have hitems' : (items.map (·.name)).map (⟨·, none⟩) = items := by
      rw [List.map_map]
      conv_rhs => rw [← List.map_id items]
      refine List.map_congr_left ?_
      rintro ⟨name, tag?⟩ hitem
      cases tag? with
      | none => rfl
      | some tag => cases htyped _ hitem rfl
    rw [← hitems'] at hitems
    exact .release hgap ((endsWord_append_iff hgap hitems).1 hends) hitems hafter

/-- **The grammar.** A line is read as a directive exactly if it is written so. -/
theorem spells_iff {cs : List Char} : Spells l cs ↔ ofChars cs = .ok l ∧ l ≠ .plain := by
  constructor
  · rintro ⟨hindent, hgap, htail⟩
    rw [Introduces.ofChars_eq ⟨hindent, htail.endsWord, _, hgap, rfl⟩, String.ofList_toList]
    exact ⟨ofTail_of_spellsTail htail, ne_plain_of_spellsTail htail⟩
  · rintro ⟨h, hl⟩
    rcases ofChars_cases cs with ⟨mark, indent, tail, hintro⟩ | hplain
    · rw [hintro.ofChars_eq] at h
      obtain ⟨gap, hgap, rfl⟩ := hintro.eq
      have htail := spellsTail_of_ofTail h hl hintro.ends
      have hspells := Spells.mk (by rw [String.toList_ofList]; exact hintro.blank) hgap htail
      rwa [String.toList_ofList] at hspells
    · rw [hplain] at h
      cases h
      exact absurd rfl hl

end

/-! ## What a directive holds -/

/-- The white space in front of a directive. -/
def indent : Line → String
  | .enter indent | .leave indent | .declare indent _ | .release indent _ => indent
  | .plain => ""

section
variable {line indent : String} {l : Line}

/-- The indent of a directive is white space of the line. -/
theorem indent_of_ofString (h : ofString line = .ok l) :
    Blank l.indent.toList ∧ l.indent.toList ⊆ line.toList := by
  by_cases hl : l = .plain
  · subst hl
    exact ⟨fun c hc => (by cases hc), List.nil_subset _⟩
  · generalize hcs : line.toList = cs
    have hspells : Spells l cs := spells_iff.2 ⟨hcs ▸ h, hl⟩
    obtain ⟨hindent, -, htail⟩ := hspells
    cases htail <;> exact ⟨hindent, List.subset_append_left _ _⟩

/-- The names that a line declares are names, and so are their type tags. -/
theorem isName_of_declare {items : List ListItem} (h : ofString line = .ok (.declare indent items))
    {item : ListItem} (hm : item ∈ items) :
    isName item.name.toList = true ∧ ∀ tag ∈ item.tag?, isName tag.toList = true := by
  generalize hcs : line.toList = cs
  have hspells : Spells (.declare indent items) cs := spells_iff.2 ⟨hcs ▸ h, by simp⟩
  obtain ⟨-, -, htail⟩ := hspells
  cases htail with
  | declare _ _ hitems => exact hitems.isName_of_mem hm

end

/-! ## One mark at a time -/

/-- The reading of a line as a directive with this mark, if it is one. -/
def recognize? (mark : Mark) (cs : List Char) : Option (Except ListFault Line) :=
  match cs.dropWhile isBlank with
  | '~' :: rest =>
    match mark.word.toList.isPrefixOf? (rest.dropWhile isBlank) with
    | some tail =>
      let reading := ofTail mark (String.ofList (cs.takeWhile isBlank)) tail
      if endsWord tail ∧ reading ≠ .ok .plain then some reading else none
    | none => none
  | _ => none

/-- The reading of a line when the marks are tried in the given order. -/
def firstReading (order : List Mark) (cs : List Char) : Except ListFault Line :=
  (order.findSome? (recognize? · cs)).getD (.ok .plain)

section
variable {mark mark' : Mark} {cs : List Char} {r r' : Except ListFault Line}

theorem isPrefixOf?_append (mark : Mark) (tail : List Char) :
    mark.word.toList.isPrefixOf? (mark.word.toList ++ tail) = some tail := by
  cases mark <;> rfl

theorem recognize?_eq_some_iff : recognize? mark cs = some r ↔
    (∃ indent tail, Introduces mark indent tail cs) ∧ r = ofChars cs ∧ r ≠ .ok .plain := by
  constructor
  · intro h
    unfold recognize? at h
    split at h
    · next rest hdrop =>
      split at h
      · next tail hword =>
        dsimp only at h
        split at h
        · next hcond =>
          cases h
          have hword' := (List.append_eq_of_isPrefixOf?_eq_some hword).symm
          have hintro := introduces_iff.2 ⟨rfl, hcond.1, rest, hdrop, hword'⟩
          exact ⟨⟨_, tail, hintro⟩, hintro.ofChars_eq.symm, hcond.2⟩
        · cases h
      · cases h
    · cases h
  · rintro ⟨⟨indent, tail, hintro⟩, rfl, hr⟩
    have heq := hintro.ofChars_eq
    obtain ⟨rfl, rest, hdrop, hword⟩ := hintro.split
    rw [heq] at hr ⊢
    simp only [recognize?, hdrop, hword, isPrefixOf?_append]
    exact if_pos ⟨hintro.ends, hr⟩

theorem eq_of_recognize? (h : recognize? mark cs = some r) (h' : recognize? mark' cs = some r') :
    mark = mark' := by
  obtain ⟨⟨_, _, hintro⟩, -⟩ := recognize?_eq_some_iff.1 h
  obtain ⟨⟨_, _, hintro'⟩, -⟩ := recognize?_eq_some_iff.1 h'
  exact (hintro.unique hintro').1

/-- **The marks can be tried in any order.** -/
theorem firstReading_eq {order : List Mark} (h : ∀ mark, mark ∈ order) (cs : List Char) :
    firstReading order cs = ofChars cs := by
  unfold firstReading
  cases hfind : order.findSome? (recognize? · cs) with
  | some r =>
    obtain ⟨mark, -, hmark⟩ := List.exists_of_findSome?_eq_some hfind
    exact (recognize?_eq_some_iff.1 hmark).2.1
  | none =>
    rcases ofChars_cases cs with ⟨mark, indent, tail, hintro⟩ | hplain
    · by_contra hne
      have hnone := List.findSome?_eq_none_iff.1 hfind mark (h mark)
      rw [recognize?_eq_some_iff.2 ⟨⟨indent, tail, hintro⟩, rfl, Ne.symm hne⟩] at hnone
      cases hnone
    · exact hplain.symm

end

/-- **Reading a line.** It is read as a directive exactly if it is written so, and it is written so
for at most one directive. No line is a directive with two marks, and in whatever order the marks
are tried, the reading is the same. -/
theorem ofString_eq_ok_iff_spells (line : String) :
    (∀ l, Spells l line.toList ↔ ofString line = .ok l ∧ l ≠ .plain) ∧
    (∀ l l', Spells l line.toList → Spells l' line.toList → l = l') ∧
    (∀ mark mark', (recognize? mark line.toList).isSome = true →
      (recognize? mark' line.toList).isSome = true → mark = mark') ∧
    ∀ order : List Mark, order.Perm Mark.all → firstReading order line.toList = ofString line := by
  refine ⟨fun l => spells_iff, ?_, ?_, ?_⟩
  · intro l l' h h'
    have heq := (spells_iff.1 h).1
    rw [(spells_iff.1 h').1] at heq
    cases heq
    rfl
  · intro mark mark' h h'
    obtain ⟨r, hr⟩ := Option.isSome_iff_exists.1 h
    obtain ⟨r', hr'⟩ := Option.isSome_iff_exists.1 h'
    exact eq_of_recognize? hr hr'
  · intro order horder
    apply firstReading_eq
    intro mark
    rw [horder.mem_iff]
    cases mark <;> decide

theorem ofString_eq_ok_iff_spells_sample :
    Spells (.declare " " [⟨"$x", some "int"⟩, ⟨"y", none⟩]) " ~ def$x : int y".toList ∧
    firstReading [.release, .declare, .leave, .enter] " ~ def$x : int y".toList =
      ofString " ~ def$x : int y" := by
  obtain ⟨hspells, -, -, horder⟩ := ofString_eq_ok_iff_spells " ~ def$x : int y"
  have hread : ofString " ~ def$x : int y" =
      .ok (.declare " " [⟨"$x", some "int"⟩, ⟨"y", none⟩]) := by decide +kernel
  exact ⟨(hspells _).2 ⟨hread, by simp⟩, horder _ (by decide)⟩

end Line

end BlockSlots
