import BlockSlots.Line.Items
import BlockSlots.Proofs.Pieces
import BlockSlots.Text.WordChar

/-!
# The grammar of lists

How a list of items is written (`SpellsItems`): names, each with a type tag after a colon or without
one, and white space between them. What follows a name never could stand in it, so there is one way
to read a list.

* `exists_trim`, `trim_append`: a list with white space on both sides.
* `splitItem?_append`, `spellsItem_of_splitItem?`: the item at the start of a text.
* `readItems_eq_ok_iff`: a list is read as items exactly if they are written so.
-/

set_option autoImplicit false

namespace BlockSlots

open Text

/-! ## Classes of characters -/

theorem CharSet.contains_eq_false {s t : CharSet}
    (h : ∀ r ∈ s.ranges, ∀ q ∈ t.ranges, r.2 < q.1 ∨ q.2 < r.1) {c : Char}
    (hc : s.contains c = true) : t.contains c = false := by
  obtain ⟨r, hr, hrc⟩ := contains_iff.1 hc
  rw [Bool.eq_false_iff]
  intro ht
  obtain ⟨q, hq, hqc⟩ := contains_iff.1 ht
  have hdisjoint := h r hr q hq
  omega

namespace Text

/-- The characters that can stand in a name: the dollar sign, digits, letters and the underscore. -/
def nameChars : CharSet where
  ranges := [(0x24, 0x24), (0x30, 0x39), (0x41, 0x5a), (0x5f, 0x5f), (0x61, 0x7a)]

theorem isNamePart_eq_contains (c : Char) : isNamePart c = nameChars.contains c := by
  have heq : ∀ d : Char, c = d ↔ c.toNat = d.toNat := fun d => Char.toNat_inj.symm
  rw [Bool.eq_iff_iff, CharSet.contains_iff]
  simp [isNamePart, isNameStart_iff, Char.isDigit_iff_toNat, heq, nameChars]
  omega

theorem isNamePart_of_isBlank {c : Char} (h : isBlank c = true) : isNamePart c = false := by
  rw [isNamePart_eq_contains]
  exact CharSet.contains_eq_false (by decide) h

theorem isBlank_of_isNamePart {c : Char} (h : isNamePart c = true) : isBlank c = false := by
  rw [Bool.eq_false_iff]
  intro hc
  rw [isNamePart_of_isBlank hc] at h
  cases h

theorem isWordChar_of_isBlank {c : Char} (h : isBlank c = true) : isWordChar c = false :=
  CharSet.contains_eq_false (by decide +kernel) h

/-- The dollar sign is the only character of names that is no word character. -/
theorem isWordChar_eq_false_iff {c : Char} (h : isNamePart c = true) :
    isWordChar c = false ↔ c = '$' := by
  constructor
  · intro hw
    rw [isNamePart_eq_contains] at h
    obtain ⟨r, hr, hlow, hhigh⟩ := CharSet.contains_iff.1 h
    have hall : ∀ r ∈ nameChars.ranges, r ≠ (0x24, 0x24) → r ∈ wordChars.ranges := by
      decide +kernel
    by_cases hd : r = (0x24, 0x24)
    · subst hd
      exact Char.toNat_inj.1 (Nat.le_antisymm hhigh hlow)
    · rw [isWordChar, CharSet.contains_iff.2 ⟨r, hall r hr hd, hlow, hhigh⟩] at hw
      cases hw
  · rintro rfl
    decide +kernel

/-! ## White space around a text -/

/-- The text is white space. -/
def Blank (cs : List Char) : Prop := ∀ c ∈ cs, isBlank c = true

/-- The text does not start with white space. -/
def Bare (cs : List Char) : Prop := ∀ c ∈ cs.head?, isBlank c = false

theorem all_isBlank_iff {cs : List Char} : cs.all isBlank = true ↔ Blank cs := List.all_eq_true

theorem bare_dropWhile (cs : List Char) : Bare (cs.dropWhile isBlank) := by
  intro c hc
  have h := List.head?_dropWhile_not isBlank cs
  rw [Option.mem_def.1 hc] at h
  simpa using h

theorem blank_takeWhile (cs : List Char) : Blank (cs.takeWhile isBlank) :=
  fun _ hc => List.mem_takeWhile_imp hc

theorem Bare.dropWhile_eq {cs : List Char} (h : Bare cs) :
    cs.takeWhile isBlank = [] ∧ cs.dropWhile isBlank = cs := by
  cases cs with
  | nil => exact ⟨rfl, rfl⟩
  | cons c cs =>
    have hc := h c rfl
    rw [List.takeWhile_cons, List.dropWhile_cons, hc]
    exact ⟨rfl, rfl⟩

theorem takeWhile_blank_append {gap cs : List Char} (hgap : Blank gap) (hcs : Bare cs) :
    (gap ++ cs).takeWhile isBlank = gap := by
  rw [List.takeWhile_append_of_pos hgap, hcs.dropWhile_eq.1, List.append_nil]

theorem dropWhile_blank_append {gap cs : List Char} (hgap : Blank gap) (hcs : Bare cs) :
    (gap ++ cs).dropWhile isBlank = cs := by
  rw [List.dropWhile_append_of_pos hgap, hcs.dropWhile_eq.2]

theorem Blank.reverse {cs : List Char} (h : Blank cs) : Blank cs.reverse :=
  fun c hc => h c (List.mem_reverse.1 hc)

theorem bare_append_iff {cs rest : List Char} (hne : cs ≠ []) : Bare (cs ++ rest) ↔ Bare cs := by
  obtain ⟨c, cs, rfl⟩ := List.exists_cons_of_ne_nil hne
  exact Iff.rfl

/-- White space at the end of a text that ends with none is empty. -/
theorem Blank.eq_nil {cs gap : List Char} (h : Blank gap) (hrev : Bare (cs ++ gap).reverse) :
    gap = [] := by
  rw [← List.reverse_eq_nil_iff]
  by_contra hne
  rw [List.reverse_append, bare_append_iff hne] at hrev
  obtain ⟨c, rest, heq⟩ := List.exists_cons_of_ne_nil hne
  have hc := h.reverse c (heq ▸ List.mem_cons_self)
  rw [heq] at hrev
  rw [hrev c rfl] at hc
  cases hc

theorem trim_append {before cs after : List Char} (hbefore : Blank before) (hafter : Blank after)
    (hne : cs ≠ []) (hcs : Bare cs) (hrev : Bare cs.reverse) :
    trim (before ++ (cs ++ after)) = cs := by
  rw [trim, dropWhile_blank_append hbefore ((bare_append_iff hne).2 hcs), List.reverse_append,
    dropWhile_blank_append hafter.reverse hrev, List.reverse_reverse]

/-- What `trim` leaves starts and ends with no white space, and what it takes off is white space. -/
theorem exists_trim (cs : List Char) : ∃ before after, Blank before ∧ Blank after ∧
    cs = before ++ (trim cs ++ after) ∧ Bare (trim cs) ∧ Bare (trim cs).reverse := by
  have hback : cs.dropWhile isBlank =
      trim cs ++ ((cs.dropWhile isBlank).reverse.takeWhile isBlank).reverse := by
    rw [trim, ← List.reverse_append, List.takeWhile_append_dropWhile, List.reverse_reverse]
  refine ⟨cs.takeWhile isBlank, _, blank_takeWhile cs,
    (blank_takeWhile (cs.dropWhile isBlank).reverse).reverse, ?_, ?_, ?_⟩
  · rw [← hback, List.takeWhile_append_dropWhile]
  · have hbare := bare_dropWhile cs
    rw [hback] at hbare
    intro c hc
    apply hbare
    rw [List.head?_append, Option.mem_def.1 hc]
    rfl
  · rw [trim, List.reverse_reverse]
    exact bare_dropWhile _

theorem bare_of_startsName {cs : List Char} (h : startsName cs = true) : Bare cs := by
  cases cs with
  | nil => cases h
  | cons c cs =>
    rintro d ⟨⟩
    exact isBlank_of_isNamePart (isNamePart_of_isNameStart h)

theorem endsName_of_blank {gap cs : List Char} (h : Blank gap) (hne : gap ≠ []) :
    endsName (gap ++ cs) = true := by
  obtain ⟨c, gap, rfl⟩ := List.exists_cons_of_ne_nil hne
  rw [List.cons_append, endsName, isNamePart_of_isBlank (h c List.mem_cons_self), Bool.not_false]

end Text

/-! ## How a list is written -/

/-- White space on a single line. -/
def Spacing (cs : List Char) : Prop := Blank cs ∧ '\n' ∉ cs

/-- How an item is written: its name, and its type tag after a colon if it has one. -/
inductive SpellsItem : ListItem → List Char → Prop
  | bare {name : String} (hname : isName name.toList = true) :
      SpellsItem ⟨name, none⟩ name.toList
  | tagged {name tag : String} {before after : List Char} (hname : isName name.toList = true)
      (hbefore : Spacing before) (hafter : Spacing after) (htag : isName tag.toList = true) :
      SpellsItem ⟨name, some tag⟩ (name.toList ++ (before ++ ':' :: (after ++ tag.toList)))

/-- How items are written one after the other, with white space between two of them. -/
inductive SpellsItems : List ListItem → List Char → Prop
  | single {item : ListItem} {cs : List Char} (h : SpellsItem item cs) : SpellsItems [item] cs
  | cons {item : ListItem} {items : List ListItem} {cs gap rest : List Char}
      (h : SpellsItem item cs) (hgap : Spacing gap) (hne : gap ≠ [])
      (hrest : SpellsItems items rest) :
      SpellsItems (item :: items) (cs ++ (gap ++ rest))

theorem not_mem_of_isName {name : List Char} (h : isName name = true) : '\n' ∉ name := by
  intro hn
  have hpart := isNamePart_of_isName h _ hn
  revert hpart
  decide

theorem bare_reverse_of_isName {name : List Char} (h : isName name = true) (front : List Char) :
    Bare (front ++ name).reverse := by
  have hne : name.reverse ≠ [] := by
    rw [ne_eq, List.reverse_eq_nil_iff]
    rintro rfl
    cases h
  rw [List.reverse_append, bare_append_iff hne]
  intro c hc
  have hmem := List.mem_reverse.1 (List.mem_of_mem_head? hc)
  exact isBlank_of_isNamePart (isNamePart_of_isName h c hmem)

section
variable {item : ListItem} {items : List ListItem} {cs : List Char}

theorem SpellsItem.startsName (h : SpellsItem item cs) (rest : List Char) :
    startsName (cs ++ rest) = true := by
  cases h with
  | bare hname => exact startsName_of_isName hname rest
  | tagged hname =>
    rw [List.append_assoc]
    exact startsName_of_isName hname _

/-- An item ends with a name: its own, or its type tag. -/
theorem SpellsItem.exists_append (h : SpellsItem item cs) :
    ∃ front name, isName name = true ∧ cs = front ++ name := by
  cases h with
  | @bare name hname => exact ⟨[], name.toList, hname, rfl⟩
  | @tagged name tag before after _ _ _ htag =>
    exact ⟨name.toList ++ (before ++ ':' :: after), tag.toList, htag, by simp⟩

theorem SpellsItem.not_mem (h : SpellsItem item cs) : '\n' ∉ cs := by
  cases h with
  | bare hname => exact not_mem_of_isName hname
  | tagged hname hbefore hafter htag =>
    simp [not_mem_of_isName hname, hbefore.2, hafter.2, not_mem_of_isName htag]

theorem SpellsItems.startsName (h : SpellsItems items cs) : startsName cs = true := by
  cases h with
  | single h =>
    have hstart := h.startsName []
    rwa [List.append_nil] at hstart
  | cons h => exact h.startsName _

theorem SpellsItems.bare_reverse (h : SpellsItems items cs) : Bare cs.reverse := by
  induction h with
  | single h =>
    obtain ⟨front, name, hname, rfl⟩ := h.exists_append
    exact bare_reverse_of_isName hname front
  | @cons item items cs gap rest _ _ _ hrest ih =>
    have hne : rest.reverse ≠ [] := by
      rw [ne_eq, List.reverse_eq_nil_iff]
      rintro rfl
      exact absurd hrest.startsName (by decide)
    rw [← List.append_assoc, List.reverse_append]
    exact (bare_append_iff hne).2 ih

theorem SpellsItems.not_mem (h : SpellsItems items cs) : '\n' ∉ cs := by
  induction h with
  | single h => exact h.not_mem
  | cons h hgap _ _ ih => simp [h.not_mem, hgap.2, ih]

theorem SpellsItems.ne_nil (h : SpellsItems items cs) : cs ≠ [] := by
  rintro rfl
  exact absurd h.startsName (by decide)

/-- A list is what is left when the white space around it is taken off. -/
theorem SpellsItems.trim_eq (h : SpellsItems items cs) {before after : List Char}
    (hbefore : Blank before) (hafter : Blank after) : trim (before ++ (cs ++ after)) = cs :=
  trim_append hbefore hafter h.ne_nil (bare_of_startsName h.startsName) h.bare_reverse

/-- The names and type tags of a list are names. -/
theorem SpellsItems.isName_of_mem (h : SpellsItems items cs) (hm : item ∈ items) :
    isName item.name.toList = true ∧ ∀ tag ∈ item.tag?, isName tag.toList = true := by
  have hitem : ∀ {item cs}, SpellsItem item cs →
      isName item.name.toList = true ∧ ∀ tag ∈ item.tag?, isName tag.toList = true := by
    intro item cs h
    cases h with
    | bare hname => exact ⟨hname, fun _ ht => by cases ht⟩
    | tagged hname _ _ htag => exact ⟨hname, fun _ ht => by cases ht; exact htag⟩
  induction h with
  | single h =>
    rw [List.mem_singleton.1 hm]
    exact hitem h
  | cons h _ _ _ ih =>
    rcases List.mem_cons.1 hm with rfl | hm
    · exact hitem h
    · exact ih hm

end

/-! ## Reading an item -/

section
variable {typed : Bool} {item : ListItem} {items : List ListItem} {cs name tag rest gap : List Char}

theorem splitWord?_eq_some_iff : splitWord? cs = some (name, rest) ↔
    isName name = true ∧ Bare rest ∧
      ∃ gap, Blank gap ∧ endsName (gap ++ rest) = true ∧ cs = name ++ (gap ++ rest) := by
  constructor
  · intro h
    obtain ⟨⟨name', rest'⟩, hsplit, heq⟩ := Option.map_eq_some_iff.1 h
    cases heq
    obtain ⟨hname, hend, rfl⟩ := splitName?_eq_some_iff.1 hsplit
    refine ⟨hname, bare_dropWhile _, rest'.takeWhile isBlank, blank_takeWhile _, ?_⟩
    rw [List.takeWhile_append_dropWhile]
    exact ⟨hend, rfl⟩
  · rintro ⟨hname, hrest, gap, hgap, hend, rfl⟩
    rw [splitWord?, splitName?_eq_some_iff.2 ⟨hname, hend, rfl⟩, Option.map_some]
    dsimp only
    rw [dropWhile_blank_append hgap hrest]

theorem splitTag?_eq_some_iff : splitTag? cs = some (tag, rest) ↔
    ∃ gap word, Blank gap ∧ cs = ':' :: (gap ++ word) ∧ splitWord? word = some (tag, rest) := by
  constructor
  · intro h
    unfold splitTag? at h
    split at h
    · next cs =>
      refine ⟨cs.takeWhile isBlank, cs.dropWhile isBlank, blank_takeWhile cs, ?_, h⟩
      rw [List.takeWhile_append_dropWhile]
    · cases h
  · rintro ⟨gap, word, hgap, rfl, h⟩
    obtain ⟨htag, -, gap', -, -, rfl⟩ := splitWord?_eq_some_iff.1 h
    have hbare := bare_of_startsName (startsName_of_isName htag (gap' ++ rest))
    rw [splitTag?, dropWhile_blank_append hgap hbare, h]

/-- An item is read off the start of a text as it is written, whatever follows the white space after
it, if that starts with no colon. -/
theorem splitItem?_append (h : SpellsItem item cs) (htyped : item.tag?.isSome = true → typed = true)
    (hgap : Blank gap) (hrest : Bare rest) (hend : endsName (gap ++ rest) = true)
    (hcolon : rest.head? ≠ some ':') :
    splitItem? typed (cs ++ (gap ++ rest)) = some (item, rest) := by
  cases h with
  | bare hname =>
    have htag : (if typed = true then splitTag? rest else none) = none := by
      split
      · unfold splitTag?
        split
        · exact absurd rfl hcolon
        · rfl
      · rfl
    rw [splitItem?, splitWord?_eq_some_iff.2 ⟨hname, hrest, gap, hgap, hend, rfl⟩, Option.map_some]
    simp only [htag, String.ofList_toList]
  | @tagged name tag before after hname hbefore hafter htag =>
    have hword : splitWord? (tag.toList ++ (gap ++ rest)) = some (tag.toList, rest) :=
      splitWord?_eq_some_iff.2 ⟨htag, hrest, gap, hgap, hend, rfl⟩
    have hsplit : splitTag? (':' :: (after ++ (tag.toList ++ (gap ++ rest)))) =
        some (tag.toList, rest) := splitTag?_eq_some_iff.2 ⟨after, _, hafter.1, rfl, hword⟩
    have hend' : endsName (before ++ ':' :: (after ++ (tag.toList ++ (gap ++ rest)))) = true := by
      by_cases hne : before = []
      · subst hne
        rfl
      · exact endsName_of_blank hbefore.1 hne
    have hbare : Bare (':' :: (after ++ (tag.toList ++ (gap ++ rest)))) := by
      rintro c ⟨⟩
      decide
    have hname' := splitWord?_eq_some_iff.2 ⟨hname, hbare, before, hbefore.1, hend', rfl⟩
    have happend : name.toList ++ (before ++ ':' :: (after ++ tag.toList)) ++ (gap ++ rest) =
        name.toList ++ (before ++ ':' :: (after ++ (tag.toList ++ (gap ++ rest)))) := by simp
    rw [happend, splitItem?, hname', Option.map_some, htyped rfl]
    simp only [if_true, hsplit, String.ofList_toList]

/-- What is read off the start of a text as an item is written so. -/
theorem spellsItem_of_splitItem? (h : splitItem? typed cs = some (item, rest)) (hn : '\n' ∉ cs) :
    (item.tag?.isSome = true → typed = true) ∧ Bare rest ∧ ∃ text gap, SpellsItem item text ∧
      Blank gap ∧ endsName (gap ++ rest) = true ∧ cs = text ++ (gap ++ rest) := by
  obtain ⟨⟨name, rest'⟩, hword, hitem⟩ := Option.map_eq_some_iff.1 h
  obtain ⟨hname, hbare, gap, hgap, hend, rfl⟩ := splitWord?_eq_some_iff.1 hword
  dsimp only at hitem
  split at hitem
  · next tag rest'' hsplit =>
    cases typed with
    | false => cases hsplit
    | true =>
      cases hitem
      obtain ⟨after, text, hafter, rfl, hword'⟩ := splitTag?_eq_some_iff.1 hsplit
      obtain ⟨htag, hbare', gap', hgap', hend', rfl⟩ := splitWord?_eq_some_iff.1 hword'
      simp only [List.mem_append, List.mem_cons, not_or] at hn
      refine ⟨fun _ => rfl, hbare', name ++ (gap ++ ':' :: (after ++ tag)), gap', ?_, hgap', hend',
        ?_⟩
      · have hspells := @SpellsItem.tagged (String.ofList name) (String.ofList tag) gap after
          (by rwa [String.toList_ofList]) ⟨hgap, hn.2.1⟩ ⟨hafter, hn.2.2.2.1⟩
          (by rwa [String.toList_ofList])
        rwa [String.toList_ofList, String.toList_ofList] at hspells
      · simp
  · cases hitem
    refine ⟨fun hsome => (by cases hsome), hbare, name, gap, ?_, hgap, hend, rfl⟩
    have hspells := @SpellsItem.bare (String.ofList name) (by rwa [String.toList_ofList])
    rwa [String.toList_ofList] at hspells

/-! ## Reading a list -/

theorem readItems_of_splitItem? (h : splitItem? typed cs = some (item, rest)) :
    readItems typed cs = (readItems typed rest).map (item :: ·) := by
  cases cs with
  | nil => exact absurd (length_lt_of_splitItem? h) (Nat.not_lt_zero _)
  | cons c cs =>
    rw [readItems]
    split
    · next h' =>
      rw [h] at h'
      cases h'
    · next h' =>
      rw [h] at h'
      cases h'
      rfl

theorem startsName_of_readItems (h : readItems typed cs = .ok items) (hne : cs ≠ []) :
    startsName cs = true := by
  obtain ⟨c, cs, rfl⟩ := List.exists_cons_of_ne_nil hne
  rw [readItems] at h
  split at h
  · cases h
  · next h' =>
    obtain ⟨_, hword, -⟩ := Option.map_eq_some_iff.1 h'
    obtain ⟨_, hname, -⟩ := Option.map_eq_some_iff.1 hword
    cases hstart : startsName (c :: cs) with
    | true => rfl
    | false =>
      rw [splitName?_eq_none_iff.2 hstart] at hname
      cases hname

/-- What is read is written so. -/
theorem spellsItems_of_readItems (h : readItems typed cs = .ok items) (hne : cs ≠ [])
    (hn : '\n' ∉ cs) (hrev : Bare cs.reverse) :
    SpellsItems items cs ∧ ∀ item ∈ items, item.tag?.isSome = true → typed = true := by
  fun_induction readItems typed cs generalizing items with
  | case1 => exact absurd rfl hne
  | case2 => cases h
  | case3 c cs item rest hitem _ ih =>
    obtain ⟨htyped, hbare, text, gap, hspells, hgap, hend, heq⟩ := spellsItem_of_splitItem? hitem hn
    rw [heq] at hn hrev ⊢
    simp only [List.mem_append, not_or] at hn
    cases hread : readItems typed rest with
    | error e =>
      rw [hread] at h
      cases h
    | ok items' =>
      rw [hread] at h
      cases h
      by_cases hrest : rest = []
      · subst hrest
        rw [List.append_nil] at hrev ⊢
        obtain rfl := hgap.eq_nil hrev
        rw [readItems] at hread
        cases hread
        rw [List.append_nil]
        refine ⟨.single hspells, fun i hi => ?_⟩
        rw [List.mem_singleton.1 hi]
        exact htyped
      · have hgapne : gap ≠ [] := by
          rintro rfl
          rw [List.nil_append, endsName_of_startsName (startsName_of_readItems hread hrest)] at hend
          cases hend
        have hrestRev : Bare rest.reverse := by
          rw [← List.append_assoc, List.reverse_append] at hrev
          exact (bare_append_iff (mt List.reverse_eq_nil_iff.1 hrest)).1 hrev
        obtain ⟨hitems, hall⟩ := ih hread hrest hn.2.2 hrestRev
        refine ⟨.cons hspells ⟨hgap, hn.2.1⟩ hgapne hitems, fun i hi => ?_⟩
        rcases List.mem_cons.1 hi with rfl | hi
        · exact htyped
        · exact hall i hi

/-- What is written as items is read so. -/
theorem readItems_of_spellsItems (h : SpellsItems items cs)
    (htyped : ∀ item ∈ items, item.tag?.isSome = true → typed = true) :
    readItems typed cs = .ok items := by
  induction h with
  | @single item cs h =>
    have hbare : Bare [] := by
      rintro c ⟨⟩
    have hblank : Blank [] := by
      rintro c ⟨⟩
    have hitem := splitItem?_append h (htyped item List.mem_cons_self) hblank hbare rfl (by simp)
    rw [List.append_nil, List.append_nil] at hitem
    rw [readItems_of_splitItem? hitem, readItems]
    rfl
  | @cons item items cs gap rest h hgap hne hrest ih =>
    have hstart := hrest.startsName
    have hcolon : rest.head? ≠ some ':' := by
      intro hc
      obtain ⟨rest, rfl⟩ := List.head?_eq_some_iff.1 hc
      have hstart' : isNameStart ':' = true := hstart
      revert hstart'
      decide
    have hitem := splitItem?_append h (htyped item List.mem_cons_self) hgap.1
      (bare_of_startsName hstart) (endsName_of_blank hgap.1 hne) hcolon
    rw [readItems_of_splitItem? hitem, ih fun i hi => htyped i (List.mem_cons_of_mem _ hi)]
    rfl

/-- **A list is read as items exactly if they are written so**, one after the other. -/
theorem readItems_eq_ok_iff (hne : cs ≠ []) (hn : '\n' ∉ cs) (hrev : Bare cs.reverse) :
    readItems typed cs = .ok items ↔
      SpellsItems items cs ∧ ∀ item ∈ items, item.tag?.isSome = true → typed = true :=
  ⟨fun h => spellsItems_of_readItems h hne hn hrev,
    fun ⟨h, htyped⟩ => readItems_of_spellsItems h htyped⟩

end

end BlockSlots
