import BlockSlots.Language
import BlockSlots.Proofs.CellArrays
import BlockSlots.Proofs.Substitution

/-!
# Dialects without directives

A dialect is harmless if none of its texts looks like a directive: those on the lines of directives
have no tilde, and those in place of names are inert.

* `Quiet`: texts without a tilde and line endings. They are put together from quiet parts.
* `Language.harmless`: the built-in languages are harmless.
-/

set_option autoImplicit false

namespace BlockSlots

open Text

/-! ## Texts without directives -/

/-- The text has no tilde and no line ending. -/
def Quiet (s : String) : Prop := ∀ c ∈ s.toList, c ≠ '~' ∧ c ≠ '\r' ∧ c ≠ '\n'

instance (s : String) : Decidable (Quiet s) :=
  List.decidableBAll _ s.toList

section
variable {s t : String}

theorem Quiet.append (hs : Quiet s) (ht : Quiet t) : Quiet (s ++ t) := by
  intro c hc
  rw [String.toList_append, List.mem_append] at hc
  exact hc.elim (hs c) (ht c)

theorem Quiet.intercalate (hs : Quiet s) {ts : List String} (h : ∀ t ∈ ts, Quiet t) :
    Quiet (s.intercalate ts) := by
  induction ts with
  | nil =>
    rw [String.intercalate_nil]
    decide
  | cons t ts ih =>
    have ht := h t List.mem_cons_self
    cases ts with
    | nil =>
      rw [String.intercalate_singleton]
      exact ht
    | cons u ts =>
      rw [String.intercalate_cons_cons]
      exact (ht.append hs).append (ih fun v hv => h v (List.mem_cons_of_mem _ hv))

theorem quiet_toString (n : Nat) : Quiet (toString n) := by
  intro c hc
  have hdigit : c.isDigit = true :=
    Nat.isDigit_of_mem_toDigits (by decide) (by decide) (Nat.toList_repr ▸ hc)
  refine ⟨?_, ?_, ?_⟩ <;> rintro rfl <;> revert hdigit <;> decide

theorem quiet_of_isName (h : isName s.toList = true) : Quiet s := by
  intro c hc
  have hpart := isNamePart_of_isName h c hc
  refine ⟨?_, ?_, ?_⟩ <;> rintro rfl <;> revert hpart <;> decide

theorem quiet_of_blank (h : Blank s.toList) (hr : '\r' ∉ s.toList) (hn : '\n' ∉ s.toList) :
    Quiet s := by
  intro c hc
  have hblank := h c hc
  refine ⟨?_, ?_, ?_⟩
  · rintro rfl
    revert hblank
    decide
  · rintro rfl
    exact hr hc
  · rintro rfl
    exact hn hc

theorem Inert.append (h : Inert s) (t : String) : Inert (s ++ t) := by
  obtain ⟨c, rest, hs, hc, hne⟩ := h
  exact ⟨c, rest ++ t.toList, by rw [String.toList_append, hs, List.cons_append], hc, hne⟩

theorem Quiet.unbroken (h : Quiet s) : '\r' ∉ s.toList ∧ '\n' ∉ s.toList :=
  ⟨fun hm => (h _ hm).2.1 rfl, fun hm => (h _ hm).2.2 rfl⟩

theorem Quiet.ofString_eq (h : Quiet s) : Line.ofString s = .ok .plain :=
  Line.ofString_of_not_mem fun hm => (h _ hm).1 rfl

end

/-! ## Built-in languages -/

/-- No text of the dialect looks like a directive, if no type tag does. -/
structure Dialect.Harmless (g : Dialect) : Prop where
  text : ∀ mark bindings, (∀ v ∈ bindings, Quiet v.tag) → Quiet (g.text mark bindings)
  use : ∀ v, Inert (g.use v) ∧ Quiet (g.use v)

theorem quiet_spaced {f : Binding → String} {bindings : List Binding}
    (h : ∀ v ∈ bindings, Quiet (f v)) : Quiet (spaced bindings f) := by
  refine Quiet.intercalate (by decide) fun t ht => ?_
  obtain ⟨v, hv, rfl⟩ := List.mem_map.1 ht
  exact h v hv

theorem harmless_slotName (v : Binding) : Inert (slotName v) ∧ Quiet (slotName v) := by
  have hi : Inert "i" := ⟨'i', [], rfl, by decide, fun mark => by cases mark <;> decide⟩
  exact ⟨hi.append _, Quiet.append (by decide) (quiet_toString _)⟩

namespace CellArray

theorem quiet_arrayName (kind : Nat) : Quiet (arrayName kind) :=
  Quiet.append (by decide) (quiet_toString kind)

theorem quiet_allocation {a : CellArray} (h : Quiet a.tag) : Quiet a.allocation := by
  have hstar : Quiet "* " := by decide
  have hmalloc : Quiet " = malloc(" := by decide
  have hsizeof : Quiet " * sizeof(" := by decide
  have hend : Quiet "));" := by decide
  exact ((((((h.append hstar).append (quiet_arrayName _)).append hmalloc).append
    (quiet_toString _)).append hsizeof).append h).append hend

theorem quiet_check (a : CellArray) : Quiet a.check := by
  have hif : Quiet "if(" := by decide
  have hexit : Quiet " == NULL) exit(1);" := by decide
  exact (hif.append (quiet_arrayName _)).append hexit

theorem quiet_free (a : CellArray) : Quiet a.free := by
  have hfree : Quiet "free(" := by decide
  have hend : Quiet ");" := by decide
  exact (hfree.append (quiet_arrayName _)).append hend

theorem harmless_cell (v : Binding) : Inert (cell v) ∧ Quiet (cell v) := by
  have hv : Inert "v" := ⟨'v', [], rfl, by decide, fun mark => by cases mark <;> decide⟩
  have hopen : Quiet "[" := by decide
  have hclose : Quiet "]" := by decide
  refine ⟨((Inert.append hv _).append _ |>.append _).append _, ?_⟩
  exact (((quiet_arrayName _).append hopen).append (quiet_toString _)).append hclose

theorem harmless : dialect.Harmless where
  text mark bindings h := by
    have hspace : Quiet " " := by decide
    cases mark with
    | enter =>
      refine hspace.intercalate fun t ht => ?_
      rcases List.mem_append.1 ht with ht | ht
      · obtain ⟨a, ha, rfl⟩ := List.mem_map.1 ht
        obtain ⟨v, hv, -, htag⟩ := (fits_ofBindings bindings).tagged a ha
        exact quiet_allocation (htag ▸ h v hv)
      · obtain ⟨a, -, rfl⟩ := List.mem_map.1 ht
        exact quiet_check a
    | leave =>
      refine hspace.intercalate fun t ht => ?_
      obtain ⟨a, -, rfl⟩ := List.mem_map.1 ht
      exact quiet_free a
    | declare => exact (by decide : Quiet "")
    | release => exact (by decide : Quiet "")
  use := harmless_cell

end CellArray

namespace Language

theorem quiet_untypedVar (v : Binding) : Quiet (untypedVar v) := by
  have hvar : Quiet "var " := by decide
  have hend : Quiet ";" := by decide
  exact (hvar.append (harmless_slotName v).2).append hend

theorem quiet_typedVar {v : Binding} (h : Quiet v.tag) : Quiet (typedVar v) := by
  have hspace : Quiet " " := by decide
  have hend : Quiet ";" := by decide
  exact ((h.append hspace).append (harmless_slotName v).2).append hend

theorem quiet_annotatedVar {v : Binding} (h : Quiet v.tag) : Quiet (annotatedVar v) := by
  have hvar : Quiet "var " := by decide
  have hcolon : Quiet ":" := by decide
  have hend : Quiet ";" := by decide
  unfold annotatedVar
  split
  · exact quiet_untypedVar v
  · exact (((hvar.append (harmless_slotName v).2).append hcolon).append h).append hend

/-- A dialect that only says how a block is opened, with quiet text. -/
theorem harmless_enter {enter : List Binding → String}
    (h : ∀ bindings, (∀ v ∈ bindings, Quiet v.tag) → Quiet (enter bindings)) :
    Dialect.Harmless { enter } where
  text mark bindings hb := by
    cases mark with
    | enter => exact h bindings hb
    | _ => exact (by decide : Quiet "")
  use := harmless_slotName

/-- **Built-in languages write no directives.** -/
theorem harmless (language : Language) : language.dialect.Harmless := by
  cases language with
  | untyped => exact harmless_enter fun _ _ => quiet_spaced fun v _ => quiet_untypedVar v
  | typed => exact harmless_enter fun _ h => quiet_spaced fun v hv => quiet_typedVar (h v hv)
  | dynamic => exact harmless_enter fun _ _ => by decide
  | annotated =>
    exact harmless_enter fun _ h => quiet_spaced fun v hv => quiet_annotatedVar (h v hv)
  | allocated => exact CellArray.harmless

end Language

end BlockSlots
