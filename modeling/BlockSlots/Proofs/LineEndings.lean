import BlockSlots.Text.Lines

/-!
# Joining lines

Cutting a text undoes the joining of lines by any of the three line endings, if the lines have no
line ending in them; and the lines of a text have none.

* `cutLines_append`: a line with its ending is cut off.
* `lines_intercalate_ending`: the lines of joined lines.
* `not_mem_of_mem_lines`: the lines of a text have no line ending in them.
-/

set_option autoImplicit false

namespace BlockSlots.Text

/-- The line endings. -/
def endings : List String := ["\r\n", "\r", "\n"]

/-! ## Cutting -/

theorem cutLines_cons {c : Char} (hr : c ≠ '\r') (hn : c ≠ '\n') (cs : List Char) :
    cutLines (c :: cs) = extendFirst c (cutLines cs) := by
  rw [cutLines]
  · exact if_neg fun h => h.elim hr hn
  · rintro cs' rfl
    exact absurd rfl hr

theorem cutLines_return {cs : List Char} (h : cs.head? ≠ some '\n') :
    cutLines ('\r' :: cs) = [] :: cutLines cs := by
  rw [cutLines]
  · exact if_pos (.inl rfl)
  · rintro cs' - rfl
    exact h rfl

/-- Which line ending it is does not matter, unless a carriage return would be taken together with a
line feed after it. -/
theorem cutLines_ending {sep : String} (hsep : sep ∈ endings) {cs : List Char}
    (h : sep = "\r" → cs.head? ≠ some '\n') : cutLines (sep.toList ++ cs) = [] :: cutLines cs := by
  simp only [endings, List.mem_cons, List.not_mem_nil, or_false] at hsep
  rcases hsep with rfl | rfl | rfl
  · show cutLines ('\r' :: '\n' :: cs) = _
    rw [cutLines]
  · exact cutLines_return (h rfl)
  · show cutLines ('\n' :: cs) = _
    simp [cutLines]

theorem cutLines_append {line cs : List Char} {rest : List (List Char)} (hr : '\r' ∉ line)
    (hn : '\n' ∉ line) (h : cutLines cs = [] :: rest) : cutLines (line ++ cs) = line :: rest := by
  induction line with
  | nil => exact h
  | cons c line ih =>
    rw [List.mem_cons, not_or] at hr hn
    rw [List.cons_append, cutLines_cons (Ne.symm hr.1) (Ne.symm hn.1), ih hr.2 hn.2, extendFirst]

theorem cutLines_of_not_mem {line : List Char} (hr : '\r' ∉ line) (hn : '\n' ∉ line) :
    cutLines line = [line] := by
  have h : cutLines (line ++ []) = [line] := cutLines_append hr hn rfl
  rwa [List.append_nil] at h

/-! ## Joining -/

/-- What is joined by carriage returns does not start with a line feed. -/
theorem head?_intercalate_return {ls : List String}
    (h : ∀ line ∈ ls, '\r' ∉ line.toList ∧ '\n' ∉ line.toList) :
    ("\r".intercalate ls).toList.head? ≠ some '\n' := by
  have hfirst : ∀ {line : String} {rest : List Char}, '\n' ∉ line.toList →
      rest.head? ≠ some '\n' → (line.toList ++ rest).head? ≠ some '\n' := by
    intro line rest hn hrest
    cases hline : line.toList with
    | nil => exact hrest
    | cons c cs =>
      rw [hline, List.mem_cons, not_or] at hn
      simpa using Ne.symm hn.1
  cases ls with
  | nil => simp [String.intercalate_nil]
  | cons line ls =>
    have hn := (h line List.mem_cons_self).2
    cases ls with
    | nil =>
      rw [String.intercalate_singleton]
      have h := @hfirst line [] hn (by simp)
      simpa using h
    | cons next ls =>
      rw [String.intercalate_cons_cons, String.toList_append, String.toList_append,
        List.append_assoc]
      exact hfirst hn (by simp)

/-- **Joining lines** by line endings and cutting the text gives the lines back. -/
theorem lines_intercalate_ending {sep : String} (hsep : sep ∈ endings) {ls : List String}
    (hne : ls ≠ []) (h : ∀ line ∈ ls, '\r' ∉ line.toList ∧ '\n' ∉ line.toList) :
    lines (sep.intercalate ls) = ls := by
  induction ls with
  | nil => exact absurd rfl hne
  | cons line ls ih =>
    obtain ⟨hr, hn⟩ := h line List.mem_cons_self
    cases ls with
    | nil =>
      rw [String.intercalate_singleton, lines, cutLines_of_not_mem hr hn]
      simp
    | cons next ls =>
      have hmem : ∀ l ∈ next :: ls, '\r' ∉ l.toList ∧ '\n' ∉ l.toList := fun l hl =>
        h l (List.mem_cons_of_mem _ hl)
      have hrest := ih (List.cons_ne_nil _ _) hmem
      have hend : cutLines (sep.toList ++ (sep.intercalate (next :: ls)).toList) =
          [] :: cutLines (sep.intercalate (next :: ls)).toList := by
        apply cutLines_ending hsep
        rintro rfl
        exact head?_intercalate_return hmem
      rw [String.intercalate_cons_cons, lines, String.toList_append, String.toList_append,
        List.append_assoc, cutLines_append hr hn hend, List.map_cons, String.ofList_toList]
      exact congrArg (line :: ·) hrest

/-- Joining lines by line feeds and cutting the text gives the lines back. -/
theorem lines_intercalate {ls : List String} (hne : ls ≠ [])
    (h : ∀ line ∈ ls, '\r' ∉ line.toList ∧ '\n' ∉ line.toList) :
    lines ("\n".intercalate ls) = ls :=
  lines_intercalate_ending (by decide) hne h

/-! ## The lines of a text -/

theorem lines_ne_nil (text : String) : lines text ≠ [] := by
  intro hnil
  exact cutLines_ne_nil _ (List.map_eq_nil_iff.1 hnil)

theorem not_mem_of_mem_cutLines {cs line : List Char} (h : line ∈ cutLines cs) :
    '\r' ∉ line ∧ '\n' ∉ line := by
  fun_induction cutLines cs generalizing line with
  | case1 =>
    rw [List.mem_singleton] at h
    simp [h]
  | case2 cs ih =>
    rcases List.mem_cons.1 h with rfl | h
    · simp
    · exact ih h
  | case3 c cs _ _ ih =>
    rcases List.mem_cons.1 h with rfl | h
    · simp
    · exact ih h
  | case4 c cs _ hc ih =>
    rw [not_or] at hc
    have hcons : ∀ rest : List Char, '\r' ∉ rest ∧ '\n' ∉ rest →
        '\r' ∉ c :: rest ∧ '\n' ∉ c :: rest := by
      rintro rest ⟨hr, hn⟩
      simp [hr, hn, Ne.symm hc.1, Ne.symm hc.2]
    cases hcut : cutLines cs with
    | nil => exact absurd hcut (cutLines_ne_nil cs)
    | cons first rest =>
      rw [hcut, extendFirst] at h
      rcases List.mem_cons.1 h with rfl | h
      · exact hcons first (ih (by rw [hcut]; exact List.mem_cons_self))
      · exact ih (by rw [hcut]; exact List.mem_cons_of_mem _ h)

theorem not_mem_of_mem_lines {text line : String} (h : line ∈ lines text) :
    '\r' ∉ line.toList ∧ '\n' ∉ line.toList := by
  obtain ⟨cs, hcs, rfl⟩ := List.mem_map.1 h
  rw [String.toList_ofList]
  exact not_mem_of_mem_cutLines hcs

/-- The first lines of a text are the lines of a text of their own. -/
theorem lines_intercalate_take {n : Nat} (hn : 0 < n) (text : String) :
    lines ("\n".intercalate ((lines text).take n)) = (lines text).take n := by
  apply lines_intercalate
  · intro hnil
    rcases List.take_eq_nil_iff.1 hnil with h | h
    · omega
    · exact cutLines_ne_nil _ (List.map_eq_nil_iff.1 h)
  · intro line hline
    exact not_mem_of_mem_lines (List.mem_of_mem_take hline)

end BlockSlots.Text
