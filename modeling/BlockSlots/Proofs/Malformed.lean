import BlockSlots.Proofs.Grammar

/-!
# Lists that cannot be read

A list that cannot be read is refused at a symbol. Which one it is follows from how items are
written alone: the longest item with the white space after it is taken off the start of the list,
again and again (`TakesItems`), and the symbol is the character at which no item starts.

* `suffix_of_splitItem?`, `longest_of_splitItem?`: what is read as an item is the longest one.
* `TakesItems.unique`, `TakesItems.bare`, `TakesItems.isNameStart`: an attempt to read a list stops
  at one place, which is neither white space nor the start of a name.
* `exists_takesItems`: a list is refused where the attempt stops.
* `ofString_error_iff_malformed`: the lines with a list that cannot be read.
-/

set_option autoImplicit false

namespace BlockSlots

open Text

/-! ## Taking items off a list -/

/-- The text is an item and white space after it. Only a `typed` item can have a type tag. -/
def SpacedItem (typed : Bool) (cs : List Char) : Prop :=
  ∃ item text gap, SpellsItem item text ∧ (item.tag?.isSome = true → typed = true) ∧ Blank gap ∧
    cs = text ++ gap

/-- Of all items that stand at the start of `cs`, each with white space after it, `taken` is the
longest. -/
structure LongestItem (typed : Bool) (taken cs : List Char) : Prop where
  spaced : SpacedItem typed taken
  starts : taken <+: cs
  longest : ∀ other, SpacedItem typed other → other <+: cs → other.length ≤ taken.length

/-- From the start of a text the longest item is taken, again and again, until no item starts at
what is left. -/
inductive TakesItems (typed : Bool) : List Char → List Char → List Char → Prop
  | stop {cs : List Char} (h : ∀ taken, SpacedItem typed taken → ¬ taken <+: cs) :
      TakesItems typed cs [] cs
  | take {cs taken mid done rest : List Char} (h : LongestItem typed taken cs)
      (hcs : cs = taken ++ mid) (hmid : TakesItems typed mid done rest) :
      TakesItems typed cs (taken ++ done) rest

section
variable {typed : Bool} {cs taken other mid done rest done' rest' : List Char}

theorem SpacedItem.startsName (h : SpacedItem typed taken) (hp : taken <+: cs) :
    startsName cs = true := by
  obtain ⟨item, text, gap, hitem, -, -, rfl⟩ := h
  obtain ⟨rest, rfl⟩ := hp
  rw [List.append_assoc]
  exact hitem.startsName _

theorem SpacedItem.concat (h : SpacedItem typed taken) {c : Char} (hc : isBlank c = true) :
    SpacedItem typed (taken ++ [c]) := by
  obtain ⟨item, text, gap, hitem, htyped, hgap, rfl⟩ := h
  refine ⟨item, text, gap ++ [c], hitem, htyped, ?_, by simp⟩
  intro d hd
  rcases List.mem_append.1 hd with hd | hd
  · exact hgap d hd
  · rwa [List.mem_singleton.1 hd]

/-- A character that starts a name is an item. -/
theorem spacedItem_singleton {c : Char} (hc : isNameStart c = true) : SpacedItem typed [c] := by
  have hname : isName (String.ofList [c]).toList = true := by
    rw [String.toList_ofList]
    simp [isName, hc]
  have hitem := SpellsItem.bare hname
  rw [String.toList_ofList] at hitem
  exact ⟨_, [c], [], hitem, (fun hsome => by cases hsome), (fun d hd => by cases hd), rfl⟩

theorem LongestItem.unique (h : LongestItem typed taken cs) (h' : LongestItem typed other cs) :
    taken = other := by
  have hle := h'.longest taken h.spaced h.starts
  have hge := h.longest other h'.spaced h'.starts
  exact (List.prefix_of_prefix_length_le h.starts h'.starts hle).eq_of_length_le hge

/-- After the longest item stands no further white space. -/
theorem LongestItem.bare (h : LongestItem typed taken (taken ++ rest)) : Bare rest := by
  intro c hc
  obtain ⟨rest, rfl⟩ := List.head?_eq_some_iff.1 (Option.mem_def.1 hc)
  rw [Bool.eq_false_iff]
  intro hblank
  have hlonger := h.longest _ (h.spaced.concat hblank) ⟨rest, by simp⟩
  rw [List.length_append] at hlonger
  exact Nat.not_succ_le_self _ hlonger

theorem TakesItems.append_eq (h : TakesItems typed cs done rest) : cs = done ++ rest := by
  induction h with
  | stop => rfl
  | take _ hcs _ ih => rw [hcs, ih, List.append_assoc]

/-- There is one way to take items off a list. -/
theorem TakesItems.unique (h : TakesItems typed cs done rest)
    (h' : TakesItems typed cs done' rest') : done = done' ∧ rest = rest' := by
  induction h generalizing done' rest' with
  | stop hstop =>
    cases h' with
    | stop => exact ⟨rfl, rfl⟩
    | take hitem => exact absurd hitem.starts (hstop _ hitem.spaced)
  | take hitem hcs _ ih =>
    cases h' with
    | stop hstop => exact absurd hitem.starts (hstop _ hitem.spaced)
    | take hitem' hcs' hmid' =>
      obtain rfl := hitem.unique hitem'
      rw [hcs, List.append_cancel_left_eq] at hcs'
      subst hcs'
      obtain ⟨rfl, rfl⟩ := ih hmid'
      exact ⟨rfl, rfl⟩

/-- Reading a list never stops at white space. -/
theorem TakesItems.bare (h : TakesItems typed cs done rest) (hcs : Bare cs) : Bare rest := by
  induction h with
  | stop => exact hcs
  | take hitem heq _ ih =>
    subst heq
    exact ih hitem.bare

/-- Reading a list never stops at the start of a name. -/
theorem TakesItems.startsName (h : TakesItems typed cs done rest) : startsName rest = false := by
  induction h with
  | @stop cs hstop =>
    cases cs with
    | nil => rfl
    | cons c cs =>
      rw [Text.startsName, Bool.eq_false_iff]
      intro hc
      exact hstop [c] (spacedItem_singleton hc) ⟨cs, rfl⟩
  | take _ _ _ ih => exact ih

end

/-! ## What is read is the longest item -/

/-- A text that starts with characters of a class starts with no more than all of them. -/
theorem exists_append_of_run {p : Char → Bool} {run run' rest rest' : List Char}
    (hrun : ∀ c ∈ run', p c = true) (hrest : ∀ c ∈ rest.head?, p c = false)
    (h : run ++ rest = run' ++ rest') : ∃ more, run = run' ++ more ∧ rest' = more ++ rest := by
  rcases List.append_eq_append_iff.1 h with ⟨more, rfl, hmore⟩ | hlonger
  · cases more with
    | nil => exact ⟨[], by simp, hmore.symm⟩
    | cons c more =>
      -- the class would go on after the run
      subst hmore
      have hc := hrest c rfl
      rw [hrun c (by simp)] at hc
      cases hc
  · exact hlonger

section
variable {typed : Bool} {cs name tag rest rest' text gap : List Char} {item item' : ListItem}

theorem head?_of_endsName (h : endsName cs = true) : ∀ c ∈ cs.head?, isNamePart c = false := by
  cases cs with
  | nil => rintro c ⟨⟩
  | cons c cs =>
    rintro d ⟨⟩
    rwa [endsName, Bool.not_eq_true'] at h

theorem splitWord?_eq_none_iff : splitWord? cs = none ↔ startsName cs = false := by
  rw [splitWord?, Option.map_eq_none_iff, splitName?_eq_none_iff]

/-- What is read of a text as a word leaves no more than any word at its start does. -/
theorem suffix_of_splitWord? (h : splitWord? cs = some (name, rest)) {name' : List Char}
    (hname' : isName name' = true) (hgap : Blank gap) (hcs : cs = name' ++ (gap ++ rest')) :
    rest <:+ rest' := by
  obtain ⟨hname, hbare, gap₀, hgap₀, hend, heq⟩ := splitWord?_eq_some_iff.1 h
  rw [hcs, eq_comm] at heq
  obtain ⟨more, hmore, htail⟩ :=
    exists_append_of_run (isNamePart_of_isName hname') (head?_of_endsName hend) heq
  cases more with
  | nil =>
    obtain ⟨more, -, hrest⟩ := exists_append_of_run hgap hbare htail.symm
    exact ⟨more, hrest.symm⟩
  | cons c more =>
    -- the shorter name is followed by no white space
    have hc : isNamePart c = true := isNamePart_of_isName hname c (by simp [hmore])
    cases gap with
    | nil =>
      refine ⟨c :: more ++ gap₀, ?_⟩
      rw [List.append_assoc]
      exact htail.symm
    | cons d gap =>
      obtain ⟨rfl, -⟩ := List.cons.inj htail
      rw [isNamePart_of_isBlank (hgap d List.mem_cons_self)] at hc
      cases hc

theorem suffix_of_splitTag? (h : splitTag? cs = some (tag, rest)) : rest <:+ cs := by
  obtain ⟨gap, word, -, rfl, hword⟩ := splitTag?_eq_some_iff.1 h
  obtain ⟨-, -, gap', -, -, rfl⟩ := splitWord?_eq_some_iff.1 hword
  exact ⟨':' :: (gap ++ (tag ++ gap')), by simp⟩

/-- An item is a word, and a type tag where there is one. -/
theorem exists_splitWord?_of_splitItem? (h : splitItem? typed cs = some (item, rest)) :
    ∃ name mid, splitWord? cs = some (name, mid) ∧ rest <:+ mid ∧
      ∀ tag rest', typed = true → splitTag? mid = some (tag, rest') → rest = rest' := by
  obtain ⟨⟨name, mid⟩, hword, hitem⟩ := Option.map_eq_some_iff.1 h
  refine ⟨name, mid, hword, ?_⟩
  dsimp only at hitem
  split at hitem
  · next tag rest₀ hsplit =>
    cases hitem
    cases typed with
    | false => cases hsplit
    | true =>
      rw [if_pos rfl] at hsplit
      refine ⟨suffix_of_splitTag? hsplit, fun tag rest' _ htag => ?_⟩
      rw [hsplit] at htag
      cases htag
      rfl
  · next hsplit =>
    cases hitem
    refine ⟨List.suffix_rfl, ?_⟩
    rintro tag rest' rfl htag
    rw [if_pos rfl, htag] at hsplit
    cases hsplit

/-- **What is read of a text as an item** leaves no more than any item at its start does. -/
theorem suffix_of_splitItem? (h : splitItem? typed cs = some (item, rest))
    (hitem : SpellsItem item' text) (htyped : item'.tag?.isSome = true → typed = true)
    (hgap : Blank gap) (hcs : cs = text ++ (gap ++ rest')) : rest <:+ rest' := by
  obtain ⟨name, mid, hword, hmid, htag⟩ := exists_splitWord?_of_splitItem? h
  cases hitem with
  | bare hname => exact hmid.trans (suffix_of_splitWord? hword hname hgap hcs)
  | @tagged name' tag' before after hname hbefore hafter htag' =>
    -- the name ends before the colon, so it is read in full, and so is the white space after it
    have hread : splitWord? cs =
        some (name'.toList, ':' :: (after ++ (tag'.toList ++ (gap ++ rest')))) := by
      refine splitWord?_eq_some_iff.2 ⟨hname, ?_, before, hbefore.1, ?_, by simp [hcs]⟩
      · rintro c ⟨⟩
        decide
      · by_cases hne : before = []
        · subst hne
          rfl
        · exact endsName_of_blank hbefore.1 hne
    rw [hread] at hword
    cases hword
    have hstart := startsName_of_isName htag' (gap ++ rest')
    cases hsplit : splitWord? (tag'.toList ++ (gap ++ rest')) with
    | none =>
      rw [splitWord?_eq_none_iff, hstart] at hsplit
      cases hsplit
    | some p =>
      obtain rfl := htag p.1 p.2 (htyped rfl)
        (splitTag?_eq_some_iff.2 ⟨after, _, hafter.1, rfl, hsplit⟩)
      exact suffix_of_splitWord? hsplit htag' hgap rfl

theorem longest_of_splitItem? (h : splitItem? typed cs = some (item, rest)) (hn : '\n' ∉ cs) :
    ∃ taken, cs = taken ++ rest ∧ LongestItem typed taken cs := by
  obtain ⟨htyped, -, text, gap, hitem, hgap, -, hcs⟩ := spellsItem_of_splitItem? h hn
  rw [← List.append_assoc] at hcs
  refine ⟨text ++ gap, hcs, ⟨item, text, gap, hitem, htyped, hgap, rfl⟩, ⟨rest, hcs.symm⟩, ?_⟩
  rintro other ⟨item', text', gap', hitem', htyped', hgap', rfl⟩ ⟨rest', hother⟩
  have hle := (suffix_of_splitItem? h hitem' htyped' hgap'
    (hother.symm.trans (List.append_assoc ..))).length_le
  have hlen := congrArg List.length (hother.trans hcs)
  simp only [List.length_append] at hlen ⊢
  omega

theorem splitItem?_eq_none_iff : splitItem? typed cs = none ↔ startsName cs = false := by
  rw [splitItem?, Option.map_eq_none_iff, splitWord?_eq_none_iff]

/-- **A list is refused** at the character where taking items off it stops. -/
theorem exists_takesItems {c : Char} (h : readItems typed cs = .error c) (hn : '\n' ∉ cs) :
    ∃ done rest, TakesItems typed cs done (c :: rest) := by
  fun_induction readItems typed cs with
  | case1 => cases h
  | case2 d cs hitem =>
    cases h
    refine ⟨[], cs, .stop fun taken htaken hp => ?_⟩
    rw [splitItem?_eq_none_iff, htaken.startsName hp] at hitem
    cases hitem
  | case3 d cs item mid hitem _ ih =>
    obtain ⟨taken, hcs, hlongest⟩ := longest_of_splitItem? hitem hn
    have hmid : '\n' ∉ mid := by
      rw [hcs] at hn
      exact fun hm => hn (List.mem_append_right _ hm)
    cases hread : readItems typed mid with
    | ok items =>
      rw [hread] at h
      cases h
    | error e =>
      rw [hread] at h
      cases h
      obtain ⟨done, rest, htakes⟩ := ih hread hmid
      exact ⟨taken ++ done, rest, .take hlongest hcs htakes⟩

end

/-! ## Lines with a list that cannot be read -/

/-- Whether the items of a directive can have type tags. -/
def Mark.takesTags (mark : Mark) : Bool := mark = .declare

/-- The text is a list of the directive: items one after the other, with type tags only where it
takes them. -/
def ListOf (mark : Mark) (cs : List Char) : Prop :=
  ∃ items, SpellsItems items cs ∧ ∀ item ∈ items, item.tag?.isSome = true → mark.takesTags = true

/-- The line is a directive that takes a list, but the text where the list should stand, on a single
line and without the white space around it, is none. -/
structure Malformed (mark : Mark) (list cs : List Char) : Prop where
  takesList : mark = .declare ∨ mark = .release
  introduced : ∃ indent tail, Introduces mark indent tail cs ∧ list = trim tail
  single : '\n' ∉ list
  not_list : ¬ ListOf mark list

namespace Line

section
variable {mark : Mark} {indent : String} {list tail cs : List Char} {symbol : String}
  {fault : ListFault}

/-- A list is all that can be wrong with a line. -/
theorem ofTail_eq_error_iff : ofTail mark indent tail = .error fault ↔
    (mark = .declare ∨ mark = .release) ∧ '\n' ∉ trim tail ∧
      readList mark mark.takesTags (trim tail) = .error fault := by
  cases mark with
  | enter => simp [ofTail]
  | leave => simp [ofTail]
  | declare =>
    show (if '\n' ∈ trim tail then _ else _) = _ ↔ _ ∧ _ ∧ readList .declare true (trim tail) = _
    cases readList .declare true (trim tail) <;> by_cases hn : '\n' ∈ trim tail <;>
      simp [hn, Except.map]
  | release =>
    show (if '\n' ∈ trim tail then _ else _) = _ ↔ _ ∧ _ ∧ readList .release false (trim tail) = _
    cases readList .release false (trim tail) <;> by_cases hn : '\n' ∈ trim tail <;>
      simp [hn, Except.map]

/-- A list is refused for being empty, or at the character where taking items off it stops. -/
theorem readList_eq_error {typed : Bool} (h : readList mark typed list = .error fault)
    (hn : '\n' ∉ list) : fault.mark = mark ∧ (list = [] ∧ fault.symbol = "" ∨
      ∃ done c rest, TakesItems typed list done (c :: rest) ∧
        fault.symbol = String.singleton c) := by
  rw [readList] at h
  split at h
  · next hempty =>
    cases h
    exact ⟨rfl, .inl ⟨List.isEmpty_iff.1 hempty, rfl⟩⟩
  · cases hread : readItems typed list with
    | ok items =>
      rw [hread] at h
      cases h
    | error c =>
      rw [hread] at h
      cases h
      obtain ⟨done, rest, htakes⟩ := exists_takesItems hread hn
      exact ⟨rfl, .inr ⟨done, c, rest, htakes, rfl⟩⟩

/-- A text on a single line that is read as a list is one. -/
theorem listOf_trim_iff (hn : '\n' ∉ trim tail) :
    ListOf mark (trim tail) ↔ ∃ items, readList mark mark.takesTags (trim tail) = .ok items := by
  constructor
  · rintro ⟨items, hitems, htyped⟩
    refine ⟨items, (readList_trim_eq_ok_iff.2 ⟨?_, htyped⟩).2⟩
    obtain ⟨before, after, hbefore, hafter, htail, -⟩ := exists_trim tail
    exact ⟨before, trim tail, after, hbefore, hitems, hafter, htail⟩
  · rintro ⟨items, hread⟩
    obtain ⟨⟨gap, list, after, hgap, hitems, hafter, rfl⟩, htyped⟩ :=
      readList_trim_eq_ok_iff.1 ⟨hn, hread⟩
    rw [hitems.trim_eq hgap hafter]
    exact ⟨items, hitems, htyped⟩

/-- **A line is refused** exactly if it is a directive with a malformed list. -/
theorem exists_ofChars_eq_error_iff :
    (∃ symbol, ofChars cs = .error ⟨mark, symbol⟩) ↔ ∃ list, Malformed mark list cs := by
  constructor
  · rintro ⟨symbol, h⟩
    rcases ofChars_cases cs with ⟨mark', indent, tail, hintro⟩ | hplain
    · rw [hintro.ofChars_eq, ofTail_eq_error_iff] at h
      obtain ⟨htakes, hn, hread⟩ := h
      obtain rfl := (readList_eq_error hread hn).1
      refine ⟨trim tail, htakes, ⟨indent, tail, hintro, rfl⟩, hn, ?_⟩
      rw [listOf_trim_iff hn, hread]
      simp
    · rw [hplain] at h
      cases h
  · rintro ⟨list, htakes, ⟨indent, tail, hintro, rfl⟩, hn, hlist⟩
    rw [listOf_trim_iff hn] at hlist
    cases hread : readList mark mark.takesTags (trim tail) with
    | ok items => exact absurd ⟨items, hread⟩ hlist
    | error fault =>
      obtain ⟨rfl, -⟩ := readList_eq_error hread hn
      refine ⟨fault.symbol, ?_⟩
      rw [hintro.ofChars_eq]
      exact ofTail_eq_error_iff.2 ⟨htakes, hn, hread⟩

/-- A malformed list is refused for being empty, or where taking items off it stops. -/
theorem symbol_of_malformed (h : Malformed mark list cs)
    (herror : ofChars cs = .error ⟨mark, symbol⟩) : Bare list ∧ (list = [] ∧ symbol = "" ∨
      ∃ done c rest, TakesItems mark.takesTags list done (c :: rest) ∧
        symbol = String.singleton c) := by
  obtain ⟨-, ⟨indent, tail, hintro, rfl⟩, hn, -⟩ := h
  obtain ⟨-, -, -, -, -, hbare, -⟩ := exists_trim tail
  rw [hintro.ofChars_eq, ofTail_eq_error_iff] at herror
  exact ⟨hbare, (readList_eq_error herror.2.2 hn).2⟩

end

/-- **Lists that cannot be read.** A line is refused exactly if it is a directive with a malformed
list. The symbol at fault is empty if the list is. Otherwise it is the character of the list at
which no item starts once the longest item has been taken off again and again; there is one way to
do so, and the character is neither white space nor the start of a name. -/
theorem ofString_error_iff_malformed (line : String) :
    (∀ mark, (∃ symbol, ofString line = .error ⟨mark, symbol⟩) ↔
      ∃ list, Malformed mark list line.toList) ∧
    ∀ mark list symbol, Malformed mark list line.toList →
      ofString line = .error ⟨mark, symbol⟩ →
      (symbol = "" ↔ list = []) ∧
      (list ≠ [] → ∃ done c rest, symbol = String.singleton c ∧ list = done ++ c :: rest ∧
        (∀ taken left, TakesItems mark.takesTags list taken left ↔
          taken = done ∧ left = c :: rest) ∧
        isBlank c = false ∧ isNameStart c = false) := by
  refine ⟨fun mark => exists_ofChars_eq_error_iff, fun mark list symbol hmal herror => ?_⟩
  obtain ⟨hbare, ⟨rfl, rfl⟩ | ⟨done, c, rest, htakes, rfl⟩⟩ := symbol_of_malformed hmal herror
  · exact ⟨iff_of_true rfl rfl, fun hne => absurd rfl hne⟩
  · have happend := htakes.append_eq
    refine ⟨iff_of_false ?_ ?_, fun _ => ⟨done, c, rest, rfl, happend, ?_, ?_, ?_⟩⟩
    · exact String.singleton_ne_empty
    · simp [happend]
    · intro taken left
      constructor
      · exact fun h => h.unique htakes
      · rintro ⟨rfl, rfl⟩
        exact htakes
    · exact htakes.bare hbare c rfl
    · exact htakes.startsName

theorem ofString_error_iff_malformed_sample :
    ofString " ~def x : int y:, z" = .error ⟨.declare, ":"⟩ ∧
    ∃ list done rest, Malformed .declare list " ~def x : int y:, z".toList ∧
      TakesItems true list done (':' :: rest) := by
  have herror : ofString " ~def x : int y:, z" = .error ⟨.declare, ":"⟩ := by decide +kernel
  obtain ⟨hmalformed, hsymbol⟩ := ofString_error_iff_malformed " ~def x : int y:, z"
  obtain ⟨list, hlist⟩ := (hmalformed .declare).1 ⟨_, herror⟩
  obtain ⟨hempty, hstop⟩ := hsymbol _ _ _ hlist herror
  obtain ⟨done, c, rest, hc, -, htakes, -⟩ := hstop (mt hempty.2 (by decide))
  obtain rfl : ':' = c := by simpa using congrArg String.toList hc
  exact ⟨herror, list, done, rest, hlist, (htakes _ _).2 ⟨rfl, rfl⟩⟩

end Line

end BlockSlots
