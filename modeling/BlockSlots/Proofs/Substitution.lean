import BlockSlots.Proofs.Grammar

/-!
# Plain lines stay plain

Names on a plain line are replaced by other text. If that text starts like a name, but with no
letter that the word of a mark starts with (`Inert`), the new line is introduced by no mark that
does not introduce the old one, and so it is plain again.

* `of_replace_cons`, `of_replace_blank`: characters outside of names are those of the old line.
* `of_replace_word`: so is the word of a mark.
* `ofString_substitute`: the new line is plain.
-/

set_option autoImplicit false

namespace BlockSlots

open Text

/-- The text starts like a name, and unlike the word of any mark. -/
def Inert (s : String) : Prop :=
  ∃ c rest, s.toList = c :: rest ∧ isNameStart c = true ∧
    ∀ mark : Mark, mark.word.toList.head? ≠ some c

namespace Text

/-- The characters of a text in which the names that `f` knows are replaced. -/
def replace (f : String → Option String) (cs : List Char) : List Char :=
  (pieces cs).flatMap (Piece.replaced f)

section
variable {f : String → Option String} {cs name rest rest' : List Char} {c : Char}

theorem replace_nil : replace f [] = [] := by
  rw [replace, pieces_nil, List.flatMap_nil]

theorem replace_append (hname : isName name = true) (hrest : endsName rest = true) :
    replace f (name ++ rest) =
      Piece.replaced f (.name (String.ofList name)) ++ replace f rest := by
  rw [replace, pieces_append hname hrest, List.flatMap_cons]
  rfl

theorem replace_cons (hc : isNameStart c = false) : replace f (c :: cs) = c :: replace f cs := by
  rw [replace, pieces_cons hc, List.flatMap_cons]
  rfl

/-- A text is empty, starts with a name, or with a character that no name starts with. -/
theorem name_cases (cs : List Char) :
    cs = [] ∨ (∃ name rest, isName name = true ∧ endsName rest = true ∧ cs = name ++ rest) ∨
      ∃ c rest, isNameStart c = false ∧ cs = c :: rest := by
  cases hsplit : splitName? cs with
  | some p => exact .inr (.inl ⟨p.1, p.2, splitName?_eq_some_iff.1 hsplit⟩)
  | none =>
    cases cs with
    | nil => exact .inl rfl
    | cons c rest => exact .inr (.inr ⟨c, rest, splitName?_eq_none_iff.1 hsplit, rfl⟩)

/-- A name that is not replaced is kept; one that is becomes inert text. -/
theorem replaced_cases (hf : ∀ t s, f t = some s → Inert s) (name : List Char) :
    Piece.replaced f (.name (String.ofList name)) = name ∨
      ∃ s, Inert s ∧ Piece.replaced f (.name (String.ofList name)) = s.toList := by
  rw [Piece.replaced]
  cases hs : f (String.ofList name) with
  | none => exact .inl (String.toList_ofList ..)
  | some s => exact .inr ⟨s, hf _ _ hs, rfl⟩

/-- In place of a name stands text that starts like a name. -/
theorem exists_replaced_cons (hf : ∀ t s, f t = some s → Inert s) (hname : isName name = true) :
    ∃ c rest, Piece.replaced f (.name (String.ofList name)) = c :: rest ∧
      isNameStart c = true := by
  rcases replaced_cases hf name with hkept | ⟨s, ⟨c, rest, hs, hc, -⟩, hinert⟩
  · rw [hkept]
    cases name with
    | nil => cases hname
    | cons c rest => exact ⟨c, rest, rfl, (isName_cons.1 hname).1⟩
  · exact ⟨c, rest, hinert.trans hs, hc⟩

/-! ## Outside of names -/

theorem eq_nil_of_replace (hf : ∀ t s, f t = some s → Inert s) (h : replace f cs = []) :
    cs = [] := by
  rcases name_cases cs with rfl | ⟨name, rest, hname, hrest, rfl⟩ | ⟨c, rest, hc, rfl⟩
  · rfl
  · obtain ⟨c, _, hcons, -⟩ := exists_replaced_cons hf hname
    rw [replace_append hname hrest, hcons] at h
    cases h
  · rw [replace_cons hc] at h
    cases h

/-- A character that starts no name stands where it stood. -/
theorem of_replace_cons (hf : ∀ t s, f t = some s → Inert s) (hc : isNameStart c = false)
    (h : replace f cs = c :: rest') : ∃ rest, cs = c :: rest ∧ replace f rest = rest' := by
  rcases name_cases cs with rfl | ⟨name, rest, hname, hrest, rfl⟩ | ⟨d, rest, hd, rfl⟩
  · rw [replace_nil] at h
    cases h
  · obtain ⟨d, _, hcons, hd⟩ := exists_replaced_cons hf hname
    rw [replace_append hname hrest, hcons] at h
    cases h
    rw [hc] at hd
    cases hd
  · rw [replace_cons hd] at h
    cases h
    exact ⟨rest, rfl, rfl⟩

theorem isNameStart_tilde : isNameStart '~' = false := by decide

/-- White space stands where it stood. -/
theorem of_replace_blank (hf : ∀ t s, f t = some s → Inert s) {gap : List Char} (hgap : Blank gap)
    (h : replace f cs = gap ++ rest') : ∃ rest, cs = gap ++ rest ∧ replace f rest = rest' := by
  induction gap generalizing cs with
  | nil => exact ⟨cs, rfl, h⟩
  | cons c gap ih =>
    have hpart := isNamePart_of_isBlank (hgap c List.mem_cons_self)
    rw [isNamePart, Bool.or_eq_false_iff] at hpart
    obtain ⟨_, rfl, hmid⟩ := of_replace_cons hf hpart.1 h
    obtain ⟨rest, rfl, hrest⟩ := ih (fun d hd => hgap d (List.mem_cons_of_mem _ hd)) hmid
    exact ⟨rest, rfl, hrest⟩

theorem blank_of_replace (hf : ∀ t s, f t = some s → Inert s) (h : Blank (replace f cs)) :
    Blank cs := by
  obtain ⟨rest, hcs, hrest⟩ := of_replace_blank hf h (List.append_nil _).symm
  rw [eq_nil_of_replace hf hrest, List.append_nil] at hcs
  rwa [hcs]

/-- What follows a name starts as it did. -/
theorem head?_replace_of_endsName (h : endsName cs = true) :
    (replace f cs).head? = cs.head? := by
  cases cs with
  | nil => rw [replace_nil]
  | cons c cs =>
    rw [endsName, Bool.not_eq_true', isNamePart, Bool.or_eq_false_iff] at h
    rw [replace_cons h.1]
    rfl

end

/-- A character that is neither in the old line nor in a text that is put in is not in the new
line. -/
theorem not_mem_substitute {f : String → Option String} {line : String} {c : Char}
    (hline : c ∉ line.toList) (hf : ∀ t s, f t = some s → c ∉ s.toList) :
    c ∉ (substitute f line).toList := by
  intro h
  rw [substitute, String.toList_ofList] at h
  obtain ⟨p, hp, hc⟩ := List.mem_flatMap.1 h
  have hkept : c ∉ p.chars := by
    intro hc
    rw [← chars_pieces line.toList] at hline
    exact hline (List.mem_flatMap.2 ⟨p, hp, hc⟩)
  cases p with
  | other d => exact hkept hc
  | name t =>
    rw [Piece.replaced] at hc
    cases hs : f t with
    | none =>
      rw [hs] at hc
      exact hkept hc
    | some s =>
      rw [hs] at hc
      exact hf t s hs hc

end Text

/-! ## The word of a mark -/

section
variable {f : String → Option String} {cs name rest rest' : List Char}

theorem Mark.isName_word (mark : Mark) : isName mark.word.toList = true := by
  cases mark <;> decide

theorem endsWord_congr {cs cs' : List Char} (h : cs.head? = cs'.head?) :
    endsWord cs = endsWord cs' := by
  cases cs <;> cases cs' <;> cases h <;> rfl

/-- A word that stands where a name was kept is the front of the name. -/
theorem exists_name_append {word : List Char} (hword : isName word = true)
    (hrest : endsName rest = true) (h : name ++ replace f rest = word ++ rest') :
    ∃ more, name = word ++ more ∧ rest' = more ++ replace f rest := by
  rcases List.append_eq_append_iff.1 h with ⟨more, rfl, htail⟩ | hname
  · cases more with
    | nil => exact ⟨[], by simp, htail.symm⟩
    | cons c more =>
      -- the word would go on after the name
      have hhead := head?_replace_of_endsName (f := f) hrest
      rw [htail, List.cons_append, List.head?_cons] at hhead
      obtain ⟨_, rfl⟩ := List.head?_eq_some_iff.1 hhead.symm
      rw [endsName, isNamePart_of_isName hword c (by simp)] at hrest
      cases hrest
  · exact hname

/-- The word of a mark stands where it stood. What follows it ends the word if it did, and is white
space only if it was. -/
theorem of_replace_word (hf : ∀ t s, f t = some s → Inert s) {mark : Mark}
    (h : replace f cs = mark.word.toList ++ rest') : ∃ rest, cs = mark.word.toList ++ rest ∧
      endsWord rest = endsWord rest' ∧ (Blank rest' → Blank rest) := by
  have hword := mark.isName_word
  rcases name_cases cs with rfl | ⟨name, rest, hname, hrest, rfl⟩ | ⟨c, rest, hc, rfl⟩
  · -- the word is not empty
    rw [replace_nil] at h
    rw [(List.append_eq_nil_iff.1 h.symm).1] at hword
    cases hword
  · rw [replace_append hname hrest] at h
    rcases replaced_cases hf name with hkept | ⟨s, ⟨c, _, hs, -, hne⟩, hinert⟩
    · rw [hkept] at h
      obtain ⟨more, rfl, rfl⟩ := exists_name_append hword hrest h
      refine ⟨more ++ rest, List.append_assoc .., ?_, fun hblank => ?_⟩
      · apply endsWord_congr
        rw [List.head?_append, List.head?_append, head?_replace_of_endsName hrest]
      · have hback := blank_of_replace hf fun c hc => hblank c (List.mem_append_right _ hc)
        intro c hc
        rcases List.mem_append.1 hc with hc | hc
        · exact hblank c (List.mem_append_left _ hc)
        · exact hback c hc
    · -- inert text does not start like the word
      have hhead := congrArg List.head? h
      rw [hinert, hs, List.cons_append, List.head?_cons, List.head?_append_of_ne_nil _ _] at hhead
      · exact absurd hhead.symm (hne mark)
      · rintro hnil
        rw [hnil] at hword
        cases hword
  · have hstart := startsName_of_isName hword rest'
    rw [replace_cons hc] at h
    rw [← h, startsName, hc] at hstart
    cases hstart

/-- **A mark that introduces the new line introduces the old one.** -/
theorem Introduces.of_replace (hf : ∀ t s, f t = some s → Inert s) {mark : Mark}
    {indent tail' : List Char} (h : Introduces mark indent tail' (replace f cs)) :
    ∃ tail, Introduces mark indent tail cs ∧ (Blank tail' → Blank tail) := by
  obtain ⟨gap, hgap, heq⟩ := h.eq
  obtain ⟨_, rfl, htilde⟩ := of_replace_blank hf h.blank heq
  obtain ⟨_, rfl, hmid⟩ := of_replace_cons hf isNameStart_tilde htilde
  obtain ⟨_, rfl, hword⟩ := of_replace_blank hf hgap hmid
  obtain ⟨tail, rfl, hends, hblank⟩ := of_replace_word hf hword
  exact ⟨tail, ⟨h.blank, hends.trans h.ends, gap, hgap, rfl⟩, hblank⟩

end

/-! ## Plain lines -/

namespace Line

section
variable {mark : Mark} {indent : String} {tail : List Char}

/-- On a single line, the words that stand alone are the only ones that make a plain line, and they
do so in front of other text. -/
theorem ofTail_eq_plain_iff (hn : '\n' ∉ tail) : ofTail mark indent tail = .ok .plain ↔
    (mark = .enter ∨ mark = .leave) ∧ ¬ Blank tail := by
  have htrim : '\n' ∉ trim tail := by
    obtain ⟨before, after, -, -, htail, -⟩ := exists_trim tail
    rw [htail] at hn
    exact fun hm => hn (List.mem_append_right _ (List.mem_append_left _ hm))
  cases mark with
  | enter => simp [ofTail, ← all_isBlank_iff]
  | leave => simp [ofTail, ← all_isBlank_iff]
  | declare =>
    rw [ofTail, if_neg htrim]
    cases readList .declare true (trim tail) <;> simp [Except.map]
  | release =>
    rw [ofTail, if_neg htrim]
    cases readList .release false (trim tail) <;> simp [Except.map]

end

/-- A line without a tilde is plain. -/
theorem ofString_of_not_mem {line : String} (h : '~' ∉ line.toList) :
    ofString line = .ok .plain := by
  rcases ofChars_cases line.toList with ⟨mark, indent, tail, hintro⟩ | hplain
  · obtain ⟨gap, -, heq⟩ := hintro.eq
    rw [heq] at h
    simp at h
  · exact hplain

/-- **A plain line stays plain** when names are replaced by inert text. -/
theorem ofString_substitute {f : String → Option String} (hf : ∀ t s, f t = some s → Inert s)
    {line : String} (hn : '\n' ∉ line.toList) (hn' : '\n' ∉ (substitute f line).toList)
    (h : ofString line = .ok .plain) : ofString (substitute f line) = .ok .plain := by
  have hreplace : (substitute f line).toList = replace f line.toList := String.toList_ofList ..
  rw [hreplace] at hn'
  rw [ofString, hreplace]
  rcases ofChars_cases (replace f line.toList) with ⟨mark, indent, tail', hintro'⟩ | hplain
  · have hmem : ∀ {cs tail : List Char}, Introduces mark indent tail cs → '\n' ∉ cs →
        '\n' ∉ tail := by
      intro cs tail hintro hcs
      obtain ⟨gap, -, rfl⟩ := hintro.eq
      intro hm
      apply hcs
      simp [hm]
    obtain ⟨tail, hintro, hblank⟩ := hintro'.of_replace hf
    rw [ofString, hintro.ofChars_eq, ofTail_eq_plain_iff (hmem hintro hn)] at h
    rw [hintro'.ofChars_eq, ofTail_eq_plain_iff (hmem hintro' hn')]
    exact ⟨h.1, fun htail' => h.2 (hblank htail')⟩
  · exact hplain

end Line

end BlockSlots
