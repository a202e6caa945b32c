import BlockSlots.Proofs.FirstFault

/-!
# Demanding types

A document is read with types demanded of its declarations, or without. A line is taken with types
demanded if it is taken without, and then only if each item that it declares has a type
(`take_demandTypes`). So the two readings stay together up to the first item without a type, and
there the one that demands types stops.

* `ofLines_of_typed`: lines that declare no item without a type make the same draft.
* `ofLines_eq_error_of_firstUntyped`: lines that can be read without types demanded are refused for
  the first item without one.
* `ofText_demandTypes`: what demanding types changes for a document.
-/

set_option autoImplicit false

namespace BlockSlots

open Text

/-! ## Items without a type -/

/-- The leftmost item without a type that a line declares. -/
def Line.untyped? (line : String) : Option ListItem :=
  match Line.ofString line with
  | .ok (.declare _ items) => items.find? (·.tag?.isNone)
  | _ => none

/-- No line declares an item without a type. -/
def Typed (lines : List String) : Prop := ∀ line ∈ lines, Line.untyped? line = none

instance (lines : List String) : Decidable (Typed lines) :=
  inferInstanceAs (Decidable (∀ line ∈ lines, Line.untyped? line = none))

/-- The fault lies in the first item without a type that the lines declare. -/
structure FirstUntyped (lines : List String) (e : LineFault) : Prop where
  line : lines[e.line]? = some e.text
  item : ∃ item, Line.untyped? e.text = some item ∧ e.cause = .untyped item.name
  before : Typed (lines.take e.line)

/-- The lines that a reading with this outcome got past: those in front of the line that it refused,
or all of them. -/
def linesRead (lines : List String) : Except LineFault Plan → List String
  | .ok _ => lines
  | .error e => if e.cause = .unbalanced .unclosed then lines else lines.take e.line

section
variable {lines : List String} {e : LineFault}

theorem exists_firstUntyped (h : ¬ Typed lines) : ∃ e, FirstUntyped lines e := by
  induction lines using List.reverseRecOn with
  | nil => exact absurd (fun line hline => by cases hline) h
  | append_singleton lines line ih =>
    by_cases hlines : Typed lines
    · -- all lines but the last one are typed
      cases hitem : Line.untyped? line with
      | some item =>
        refine ⟨⟨.untyped item.name, lines.length, line⟩, List.getElem?_concat_length,
          ⟨item, hitem, rfl⟩, ?_⟩
        rwa [List.take_left]
      | none =>
        refine absurd (fun l hl => ?_) h
        rcases List.mem_append.1 hl with hl | hl
        · exact hlines l hl
        · rwa [List.mem_singleton.1 hl]
    · obtain ⟨e, hline, hitem, hbefore⟩ := ih hlines
      have hlt := (List.getElem?_eq_some_iff.1 hline).1
      refine ⟨e, ?_, hitem, ?_⟩
      · rwa [List.getElem?_append_left hlt]
      · rwa [List.take_append_of_le_length (Nat.le_of_lt hlt)]

theorem FirstUntyped.lt (h : FirstUntyped lines e) : e.line < lines.length :=
  (List.getElem?_eq_some_iff.1 h.line).1

theorem FirstUntyped.of_take {n : Nat} (h : FirstUntyped (lines.take n) e) :
    FirstUntyped lines e := by
  have hlt := h.lt
  rw [List.length_take] at hlt
  refine ⟨?_, h.item, ?_⟩
  · rw [← List.getElem?_take_of_lt (show e.line < n by omega), h.line]
  · have hbefore := h.before
    rwa [List.take_take, show min e.line n = e.line by omega] at hbefore

end

namespace Draft

variable {settings : Settings} {lines : List String} {line : String} {d : Draft} {e : LineFault}

/-- **A line is taken with types demanded** if it is taken without, and each item that it declares
has a type. -/
theorem take_demandTypes (settings : Settings) (d : Draft) (line : String) :
    d.take { settings with demandTypes := true } line =
      (d.take { settings with demandTypes := false } line).bind fun d' =>
        match Line.untyped? line with
        | some item => .error (.untyped item.name)
        | none => .ok d' := by
  unfold take Line.untyped?
  cases Line.ofString line with
  | error fault => rfl
  | ok l =>
    cases l with
    | enter indent => rfl
    | plain => rfl
    | leave indent =>
      dsimp only
      cases d.leave indent <;> rfl
    | release indent names =>
      dsimp only
      cases d.release indent names <;> rfl
    | declare indent items =>
      simp only [declare, undeclarable?]
      cases d.nest.current? with
      | none => rfl
      | some block =>
        simp only [if_true, Bool.false_eq_true, if_false]
        cases items.find? (·.tag?.isNone) <;> rfl

theorem take_of_typed (h : Line.untyped? line = none) (d : Draft) :
    d.take { settings with demandTypes := true } line =
      d.take { settings with demandTypes := false } line := by
  rw [take_demandTypes, h]
  cases d.take { settings with demandTypes := false } line <;> rfl

/-- **Lines that declare no item without a type** make the same draft, or are refused for the same
fault. -/
theorem ofLines_of_typed (h : Typed lines) :
    ofLines { settings with demandTypes := true } lines =
      ofLines { settings with demandTypes := false } lines := by
  induction lines using List.reverseRecOn with
  | nil => rfl
  | append_singleton lines line ih =>
    have hline := h line (List.mem_append_right _ List.mem_cons_self)
    rw [ofLines_concat, ofLines_concat, ih fun l hl => h l (List.mem_append_left _ hl)]
    refine congrArg _ (funext fun d => ?_)
    rw [addLine, addLine, take_of_typed hline]

/-- Of a line that is refused anyway, no types are demanded. -/
theorem ofLines_eq_error_of_typed
    (he : ofLines { settings with demandTypes := false } lines = .error e)
    (h : Typed (lines.take e.line)) :
    ofLines { settings with demandTypes := true } lines = .error e := by
  obtain ⟨d, hget, hpre, htake⟩ := ofLines_eq_error_iff.1 he
  refine ofLines_eq_error_iff.2 ⟨d, hget, (ofLines_of_typed h).trans hpre, ?_⟩
  rw [take_demandTypes, htake]
  rfl

/-- **Lines are refused for the first item without a type** if types are demanded, where they can be
read up to that item without. -/
theorem ofLines_eq_error_of_firstUntyped (h : FirstUntyped lines e)
    (hd : ∃ d, ofLines { settings with demandTypes := false } (lines.take (e.line + 1)) = .ok d) :
    ofLines { settings with demandTypes := true } lines = .error e := by
  obtain ⟨d', hd⟩ := hd
  have hlines : lines.take (e.line + 1) = lines.take e.line ++ [e.text] := by
    rw [List.take_add_one, h.line]
    rfl
  rw [hlines] at hd
  obtain ⟨d, d₁, hpre, htake, -⟩ := ofLines_concat_eq_ok hd
  obtain ⟨item, hitem, hcause⟩ := h.item
  refine ofLines_eq_error_iff.2 ⟨d, h.line, (ofLines_of_typed h.before).trans hpre, ?_⟩
  rw [take_demandTypes, htake, hitem, hcause]
  rfl

/-- If lines at the front can be read without types demanded, but not all are typed, the first item
without a type is at fault with types demanded, whatever follows. -/
theorem exists_ofLines_eq_error {n : Nat}
    (hd : ofLines { settings with demandTypes := false } (lines.take n) = .ok d)
    (hnot : ¬ Typed (lines.take n)) : ∃ e, FirstUntyped lines e ∧
      ofLines { settings with demandTypes := true } lines = .error e := by
  obtain ⟨e, he⟩ := exists_firstUntyped hnot
  have hlt := he.lt
  rw [List.length_take] at hlt
  have hfront := ofLines_eq_error_of_firstUntyped he (exists_ofLines_take hd _)
  refine ⟨e, he.of_take, ofLines_eq_error_of_take hfront ?_⟩
  rw [List.take_take, Nat.min_eq_left (by omega)]

theorem cause_ne_of_ofLines (h : ofLines settings lines = .error e) :
    e.cause ≠ .unbalanced .unclosed := by
  obtain ⟨d, -, hpre, htake⟩ := ofLines_eq_error_iff.1 h
  exact ((tracks_ofLines hpre).take_eq_error_iff.1 htake).cause_ne

/-- Whether all blocks are closed is asked after every line is read. -/
theorem linesRead_finish (settings : Settings) (lines : List String) (d : Draft) :
    linesRead lines (d.finish settings lines) = lines := by
  unfold finish
  cases d.nest.outermost? <;> simp [linesRead]

end Draft

/-! ## Documents -/

namespace Plan

/-- **What demanding types changes.** If the lines that are read when no types are demanded declare
no item without one, the outcome is the same when they are: the same plan or the same fault.
Otherwise the document is refused for the first item without a type. -/
theorem ofText_demandTypes (settings : Settings) (text : String) :
    (Typed (linesRead (Text.lines text)
        (ofText { settings with demandTypes := false } text)) →
      ofText { settings with demandTypes := true } text =
        ofText { settings with demandTypes := false } text) ∧
    (¬ Typed (linesRead (Text.lines text)
        (ofText { settings with demandTypes := false } text)) →
      ∃ e, FirstUntyped (Text.lines text) e ∧
        ofText { settings with demandTypes := true } text = .error e) := by
  generalize hlines : Text.lines text = lines
  rw [ofText, ofText, hlines, ofLines_eq_bind, ofLines_eq_bind]
  cases hd : Draft.ofLines { settings with demandTypes := false } lines with
  | ok d =>
    have hread : linesRead lines ((Except.ok d).bind
        (Draft.finish { settings with demandTypes := false } lines)) = lines :=
      Draft.linesRead_finish _ _ _
    rw [hread]
    refine ⟨fun htyped => ?_, fun hnot => ?_⟩
    · rw [Draft.ofLines_of_typed htyped, hd]
      rfl
    · rw [← List.take_length (l := lines)] at hd hnot
      obtain ⟨e, he, hstrict⟩ := Draft.exists_ofLines_eq_error hd hnot
      exact ⟨e, he, by rw [hstrict]; rfl⟩
  | error e₀ =>
    have hread : linesRead lines ((Except.error e₀ : Except LineFault Draft).bind
        (Draft.finish { settings with demandTypes := false } lines)) = lines.take e₀.line :=
      if_neg (Draft.cause_ne_of_ofLines hd)
    rw [hread]
    refine ⟨fun htyped => ?_, fun hnot => ?_⟩
    · rw [Draft.ofLines_eq_error_of_typed hd htyped]
      rfl
    · obtain ⟨d, -, hfront, -⟩ := Draft.ofLines_eq_error_iff.1 hd
      obtain ⟨e, he, hstrict⟩ := Draft.exists_ofLines_eq_error hfront hnot
      exact ⟨e, he, by rw [hstrict]; rfl⟩

theorem ofText_demandTypes_samples :
    (∃ e, FirstUntyped (Text.lines "~begin\n~def x:int y\n~undef z\n~end") e ∧
      ofText { demandTypes := true } "~begin\n~def x:int y\n~undef z\n~end" = .error e) ∧
    ofText { demandTypes := true } "~begin\n~undef z\n~def y" =
      .error ⟨.unbound ⟨"z"⟩, 1, "~undef z"⟩ := by
  constructor
  · have hread : ofText {} "~begin\n~def x:int y\n~undef z\n~end" =
        .error ⟨.unbound ⟨"z"⟩, 2, "~undef z"⟩ := by decide +kernel
    refine (ofText_demandTypes {} "~begin\n~def x:int y\n~undef z\n~end").2 ?_
    rw [hread]
    decide +kernel
  · have hread : ofText {} "~begin\n~undef z\n~def y" =
        .error ⟨.unbound ⟨"z"⟩, 1, "~undef z"⟩ := by decide +kernel
    refine ((ofText_demandTypes {} "~begin\n~undef z\n~def y").1 ?_).trans hread
    rw [hread]
    decide +kernel

end Plan

end BlockSlots
