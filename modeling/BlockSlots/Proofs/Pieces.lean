import BlockSlots.Text.Blank
import BlockSlots.Text.Name
import Mathlib.Data.List.Basic
import Mathlib.Data.List.TakeWhile

/-!
# Names and the characters between them

A text falls into names, each as long as it can be, and other characters. Conversely pieces in which
every name is one and ends where it has to (`Separated`) are just the pieces of the text that they
spell, so names can be replaced by other names without a change to what is between them.

* `splitName?_eq_some_iff`: what is split off a text as the name at its start.
* `pieces_flatMap_chars`: separated pieces are those of their text.
* `toList_substitute`, `substitute_congr`: a substitution writes the pieces with other names, and
  only what becomes of the names of the text matters.
* `pieces_substitute`, `names_substitute`: the pieces and names of a text in which names were
  replaced by names.
-/

set_option autoImplicit false

namespace BlockSlots.Text

/-! ## Names -/

/-- Whether a text is a name. -/
def isName : List Char → Bool
  | [] => false
  | c :: cs => isNameStart c && cs.all isNamePart

/-- Whether a name can end before `rest`: nothing follows, or nothing that could stand in it. -/
def endsName : List Char → Bool
  | [] => true
  | c :: _ => !isNamePart c

/-- Whether a name starts at the start of a text. -/
def startsName : List Char → Bool
  | [] => false
  | c :: _ => isNameStart c

theorem isNameStart_iff {c : Char} : isNameStart c = true ↔
    (0x41 ≤ c.toNat ∧ c.toNat ≤ 0x5a ∨ 0x61 ≤ c.toNat ∧ c.toNat ≤ 0x7a) ∨ c = '_' ∨ c = '$' := by
  have halpha : c.isAlpha = (decide (c.val ≥ 'A'.val ∧ c.val ≤ 'Z'.val) ||
      (decide (c.val ≥ 'a'.val) && decide (c.val ≤ 'z'.val))) := rfl
  simp [isNameStart, halpha, UInt32.le_iff_toNat_le, or_assoc]

theorem isNamePart_of_isNameStart {c : Char} (h : isNameStart c = true) : isNamePart c = true := by
  rw [isNamePart, h, Bool.true_or]

theorem isName_cons {c : Char} {cs : List Char} :
    isName (c :: cs) = true ↔ isNameStart c = true ∧ ∀ d ∈ cs, isNamePart d = true := by
  rw [isName, Bool.and_eq_true, List.all_eq_true]

theorem startsName_of_isName {name : List Char} (h : isName name = true) (rest : List Char) :
    startsName (name ++ rest) = true := by
  cases name with
  | nil => cases h
  | cons c cs => exact (isName_cons.1 h).1

theorem isNamePart_of_isName {name : List Char} (h : isName name = true) :
    ∀ c ∈ name, isNamePart c = true := by
  cases name with
  | nil => cases h
  | cons c cs =>
    obtain ⟨hc, hcs⟩ := isName_cons.1 h
    intro d hd
    rcases List.mem_cons.1 hd with rfl | hd
    · exact isNamePart_of_isNameStart hc
    · exact hcs d hd

theorem endsName_of_startsName {cs : List Char} (h : startsName cs = true) :
    endsName cs = false := by
  cases cs with
  | nil => cases h
  | cons c cs => rw [endsName, isNamePart_of_isNameStart h, Bool.not_true]

theorem takeWhile_eq_nil_of_endsName {cs : List Char} (h : endsName cs = true) :
    cs.takeWhile isNamePart = [] ∧ cs.dropWhile isNamePart = cs := by
  cases cs with
  | nil => exact ⟨rfl, rfl⟩
  | cons c cs =>
    have hc : isNamePart c = false := by rwa [endsName, Bool.not_eq_true'] at h
    rw [List.takeWhile_cons, List.dropWhile_cons, hc]
    exact ⟨rfl, rfl⟩

theorem endsName_dropWhile (cs : List Char) : endsName (cs.dropWhile isNamePart) = true := by
  cases hd : cs.dropWhile isNamePart with
  | nil => rfl
  | cons c rest =>
    have hc := List.head?_dropWhile_not isNamePart cs
    rw [hd] at hc
    rw [endsName, Bool.not_eq_true']
    simpa using hc

/-- **The name at the start of a text** is followed by nothing that could stand in it. -/
theorem splitName?_eq_some_iff {cs name rest : List Char} :
    splitName? cs = some (name, rest) ↔
      isName name = true ∧ endsName rest = true ∧ cs = name ++ rest := by
  constructor
  · intro h
    have happend := append_of_splitName? h
    cases cs with
    | nil => cases h
    | cons c cs =>
      rw [splitName?] at h
      split at h
      · next hc =>
        cases h
        exact ⟨isName_cons.2 ⟨hc, fun d hd => List.mem_takeWhile_imp hd⟩, endsName_dropWhile cs,
          happend.symm⟩
      · cases h
  · rintro ⟨hname, hrest, rfl⟩
    cases name with
    | nil => cases hname
    | cons c cs =>
      obtain ⟨hc, hcs⟩ := isName_cons.1 hname
      obtain ⟨htake, hdrop⟩ := takeWhile_eq_nil_of_endsName hrest
      rw [List.cons_append, splitName?, if_pos hc, List.takeWhile_append_of_pos hcs,
        List.dropWhile_append_of_pos hcs, htake, hdrop, List.append_nil]

theorem splitName?_eq_none_iff {cs : List Char} :
    splitName? cs = none ↔ startsName cs = false := by
  cases cs with
  | nil => exact iff_of_true rfl rfl
  | cons c cs =>
    rw [splitName?, startsName]
    cases isNameStart c <;> simp

/-! ## Separated pieces -/

theorem pieces_nil : pieces [] = [] := by
  simp [pieces, splitName?]

theorem pieces_append {name rest : List Char} (hname : isName name = true)
    (hrest : endsName rest = true) :
    pieces (name ++ rest) = .name (String.ofList name) :: pieces rest := by
  have h := splitName?_eq_some_iff.2 ⟨hname, hrest, rfl⟩
  rw [pieces]
  split
  · next name' rest' h' =>
    rw [h] at h'
    cases h'
    rfl
  · next h' =>
    rw [h] at h'
    cases h'

theorem pieces_cons {c : Char} (hc : isNameStart c = false) (cs : List Char) :
    pieces (c :: cs) = .other c :: pieces cs := by
  have h : splitName? (c :: cs) = none := splitName?_eq_none_iff.2 hc
  rw [pieces]
  split
  · next h' =>
    rw [h] at h'
    cases h'
  · rfl

/-- Every name among the pieces is a name and ends where it stands, and no other character starts
one. -/
def Separated : List Piece → Prop
  | [] => True
  | .name t :: ps =>
    isName t.toList = true ∧ endsName (ps.flatMap Piece.chars) = true ∧ Separated ps
  | .other c :: ps => isNameStart c = false ∧ Separated ps

theorem separated_pieces (cs : List Char) : Separated (pieces cs) := by
  fun_induction pieces cs with
  | case1 cs name rest h _ ih =>
    obtain ⟨hname, hrest, -⟩ := splitName?_eq_some_iff.1 h
    rw [Separated, String.toList_ofList, chars_pieces]
    exact ⟨hname, hrest, ih⟩
  | case2 => trivial
  | case3 c cs h ih => exact ⟨splitName?_eq_none_iff.1 h, ih⟩

/-- **Separated pieces are the pieces of the text they spell.** -/
theorem pieces_flatMap_chars {ps : List Piece} (h : Separated ps) :
    pieces (ps.flatMap Piece.chars) = ps := by
  induction ps with
  | nil => exact pieces_nil
  | cons p ps ih =>
    rw [List.flatMap_cons]
    cases p with
    | name t =>
      obtain ⟨ht, hend, hps⟩ := h
      rw [Piece.chars, pieces_append ht hend, ih hps, String.ofList_toList]
    | other c =>
      obtain ⟨hc, hps⟩ := h
      rw [Piece.chars, List.singleton_append, pieces_cons hc, ih hps]

/-! ## Replacing names by names -/

/-- The piece with another name, if it is one. -/
def Piece.rename (f : String → String) : Piece → Piece
  | name t => name (f t)
  | other c => other c

theorem Piece.rename_id : Piece.rename id = id := by
  funext p
  cases p <;> rfl

theorem Piece.rename_comp (f g : String → String) :
    Piece.rename g ∘ Piece.rename f = Piece.rename (g ∘ f) := by
  funext p
  cases p <;> rfl

/-- A substitution writes the pieces of a line with other names. -/
theorem toList_substitute (f : String → Option String) (line : String) :
    (substitute f line).toList =
      ((pieces line.toList).map (Piece.rename fun t => (f t).getD t)).flatMap Piece.chars := by
  rw [substitute, String.toList_ofList, List.flatMap_map]
  refine congrArg (List.flatMap · _) (funext fun p => ?_)
  cases p <;> rfl

theorem separated_map_rename {f : String → String}
    (hf : ∀ t, isName t.toList = true → isName (f t).toList = true) {ps : List Piece}
    (h : Separated ps) : Separated (ps.map (Piece.rename f)) := by
  induction ps with
  | nil => trivial
  | cons p ps ih =>
    cases p with
    | name t =>
      obtain ⟨ht, hend, hps⟩ := h
      refine ⟨hf t ht, ?_, ih hps⟩
      -- what follows a name starts with no name, and is left as it is
      cases ps with
      | nil => rfl
      | cons q ps =>
        cases q with
        | name s =>
          rw [List.flatMap_cons, Piece.chars,
            endsName_of_startsName (startsName_of_isName hps.1 _)] at hend
          cases hend
        | other c => exact hend
    | other c => exact ⟨h.1, ih h.2⟩

/-- **Replacing names by names** changes no other piece. -/
theorem pieces_substitute {f : String → Option String}
    (hf : ∀ t s, isName t.toList = true → f t = some s → isName s.toList = true) (line : String) :
    pieces (substitute f line).toList =
      (pieces line.toList).map (Piece.rename fun t => (f t).getD t) := by
  rw [toList_substitute]
  apply pieces_flatMap_chars
  apply separated_map_rename _ (separated_pieces _)
  intro t ht
  cases hs : f t with
  | none => exact ht
  | some s => exact hf t s ht hs

theorem names_substitute {f : String → Option String}
    (hf : ∀ t s, isName t.toList = true → f t = some s → isName s.toList = true) (line : String) :
    names (substitute f line) = (names line).map fun t => (f t).getD t := by
  rw [names, pieces_substitute hf, names, List.filterMap_map, List.map_filterMap]
  refine congrArg (List.filterMap · _) (funext fun p => ?_)
  cases p <;> rfl

theorem mem_names_of_mem_pieces {line name : String} (h : .name name ∈ pieces line.toList) :
    name ∈ names line :=
  List.mem_filterMap.2 ⟨_, h, rfl⟩

/-- Only what becomes of the names of a line matters to it. -/
theorem substitute_congr {f g : String → Option String} {line : String}
    (h : ∀ t ∈ names line, (f t).getD t = (g t).getD t) :
    substitute f line = substitute g line := by
  rw [substitute, substitute]
  refine congrArg _ (List.flatMap_congr fun piece hp => ?_)
  cases piece with
  | name t => rw [Piece.replaced, Piece.replaced, h t (mem_names_of_mem_pieces hp)]
  | other c => rfl

end BlockSlots.Text
