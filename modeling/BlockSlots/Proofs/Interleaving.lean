import BlockSlots.Proofs.LineEndings
import Mathlib.Logic.ExistsUnique

/-!
# Lines and the endings between them

A text consists of its lines and of the line endings between them. Cutting it gives back the lines
that it was put together from, as long as no line feed was put where it is taken together with a
carriage return before it; and a text can be put together from its lines in one way only.

* `interleave`: lines with endings between them. `Between`: the endings that can stand there.
* `cutEndings`: the line endings of a text.
* `cut_interleave`: cutting undoes the interleaving, for the lines and for the endings.
* `Between.cutEndings`, `interleave_cutEndings`: every text is such an interleaving.
* `lines_interleave_unique`: both together.
-/

set_option autoImplicit false

namespace BlockSlots.Text

/-- Lines with endings between them. -/
def interleave : List String → List String → String
  | line :: ls, ending :: rest => line ++ (ending ++ interleave ls rest)
  | line :: _, [] => line
  | [], _ => ""

/-- `es` can stand between the lines `ls`. -/
structure Between (ls es : List String) : Prop where
  /-- There is an ending after each line but the last. -/
  length : es.length + 1 = ls.length
  ending : ∀ e ∈ es, e ∈ endings
  /-- No line has a line ending in it. -/
  whole : ∀ line ∈ ls, '\r' ∉ line.toList ∧ '\n' ∉ line.toList
  /-- A line feed does not follow a carriage return with only an empty line in between. -/
  apart : ∀ i, ¬(es[i]? = some "\r" ∧ ls[i + 1]? = some "" ∧ es[i + 1]? = some "\n")

/-- The line endings of a text given by its characters. -/
def cutEndings : List Char → List String
  | [] => []
  | '\r' :: '\n' :: cs => "\r\n" :: cutEndings cs
  | c :: cs => if c = '\r' ∨ c = '\n' then String.singleton c :: cutEndings cs else cutEndings cs

/-! ## Endings that can stand between lines -/

section
variable {line e : String} {ls es : List String}

theorem between_singleton : Between [line] [] ↔ '\r' ∉ line.toList ∧ '\n' ∉ line.toList where
  mp h := h.whole line List.mem_cons_self
  mpr h := ⟨rfl, by simp, by simpa using h, by simp⟩

theorem between_cons_cons : Between (line :: ls) (e :: es) ↔
    ('\r' ∉ line.toList ∧ '\n' ∉ line.toList) ∧ e ∈ endings ∧
      ¬(e = "\r" ∧ ls[0]? = some "" ∧ es[0]? = some "\n") ∧ Between ls es := by
  constructor
  · rintro ⟨hlen, hend, hwhole, hapart⟩
    refine ⟨hwhole line List.mem_cons_self, hend e List.mem_cons_self, ?_, ?_, ?_, ?_, ?_⟩
    · simpa using hapart 0
    · simpa using hlen
    · exact fun x hx => hend x (List.mem_cons_of_mem _ hx)
    · exact fun x hx => hwhole x (List.mem_cons_of_mem _ hx)
    · exact fun i => hapart (i + 1)
  · rintro ⟨hline, he, hfirst, hlen, hend, hwhole, hapart⟩
    refine ⟨by simpa using hlen, ?_, ?_, ?_⟩
    · exact List.forall_mem_cons.2 ⟨he, hend⟩
    · exact List.forall_mem_cons.2 ⟨hline, hwhole⟩
    · intro i
      cases i with
      | zero => simpa using hfirst
      | succ i => exact hapart i

theorem head?_interleave (h : ls[0]? = some "" ∧ es[0]? = some "\n") :
    (interleave ls es).toList.head? = some '\n' := by
  obtain ⟨hls, hes⟩ := h
  cases ls with
  | nil => cases hls
  | cons line ls =>
    cases es with
    | nil => cases hes
    | cons e es =>
      rw [List.getElem?_cons_zero, Option.some.injEq] at hls hes
      rw [hls, hes, interleave, String.toList_append, String.toList_append]
      rfl

/-- Lines with endings between them start with a line feed only if the first line is empty and a
line feed follows it. -/
theorem Between.head?_interleave_ne (h : Between ls es)
    (hfirst : ¬(ls[0]? = some "" ∧ es[0]? = some "\n")) :
    (interleave ls es).toList.head? ≠ some '\n' := by
  cases ls with
  | nil => simp [interleave]
  | cons line ls =>
    have hwhole := (h.whole line List.mem_cons_self).2
    have hskip : ∀ rest : String, (line = "" → rest.toList.head? ≠ some '\n') →
        (line ++ rest).toList.head? ≠ some '\n' := by
      intro rest hrest
      rw [String.toList_append]
      cases hline : line.toList with
      | nil => exact hrest (String.toList_eq_nil_iff.1 hline)
      | cons c cs =>
        rw [hline, List.mem_cons, not_or] at hwhole
        simpa using Ne.symm hwhole.1
    cases es with
    | nil =>
      have hline := hskip "" (by simp)
      rwa [String.append_empty] at hline
    | cons e es =>
      apply hskip
      rintro rfl
      have he := h.ending e List.mem_cons_self
      simp only [endings, List.mem_cons, List.not_mem_nil, or_false] at he
      rw [String.toList_append]
      rcases he with rfl | rfl | rfl
      · simp
      · simp
      · exact absurd ⟨rfl, rfl⟩ hfirst

end

/-! ## Cutting an interleaving -/

theorem cutEndings_cons {c : Char} (hr : c ≠ '\r') (hn : c ≠ '\n') (cs : List Char) :
    cutEndings (c :: cs) = cutEndings cs := by
  rw [cutEndings]
  · exact if_neg fun h => h.elim hr hn
  · rintro cs' rfl
    exact absurd rfl hr

theorem cutEndings_append {line : List Char} (hr : '\r' ∉ line) (hn : '\n' ∉ line)
    (cs : List Char) : cutEndings (line ++ cs) = cutEndings cs := by
  induction line with
  | nil => rfl
  | cons c line ih =>
    rw [List.mem_cons, not_or] at hr hn
    rw [List.cons_append, cutEndings_cons (Ne.symm hr.1) (Ne.symm hn.1), ih hr.2 hn.2]

theorem cutEndings_single {c : Char} (hc : c = '\r' ∨ c = '\n') {cs : List Char}
    (h : c = '\r' → cs.head? ≠ some '\n') :
    cutEndings (c :: cs) = String.singleton c :: cutEndings cs := by
  rw [cutEndings]
  · exact if_pos hc
  · rintro cs' hret rfl
    exact h hret rfl

theorem cutEndings_ending {e : String} (he : e ∈ endings) {cs : List Char}
    (h : e = "\r" → cs.head? ≠ some '\n') : cutEndings (e.toList ++ cs) = e :: cutEndings cs := by
  simp only [endings, List.mem_cons, List.not_mem_nil, or_false] at he
  rcases he with rfl | rfl | rfl
  · show cutEndings ('\r' :: '\n' :: cs) = _
    rw [cutEndings]
  · exact cutEndings_single (.inl rfl) fun _ => h rfl
  · exact cutEndings_single (.inr rfl) fun hret => absurd hret (by decide)

/-- **Cutting lines with endings between them** gives back the lines and the endings. -/
theorem cut_interleave {ls es : List String} (h : Between ls es) :
    cutLines (interleave ls es).toList = ls.map String.toList ∧
      cutEndings (interleave ls es).toList = es := by
  induction es generalizing ls with
  | nil =>
    obtain ⟨line, rfl⟩ := List.length_eq_one_iff.1 h.length.symm
    obtain ⟨hr, hn⟩ := between_singleton.1 h
    refine ⟨cutLines_of_not_mem hr hn, ?_⟩
    have hcut := cutEndings_append hr hn []
    rwa [List.append_nil] at hcut
  | cons e es ih =>
    cases ls with
    | nil => exact absurd h.length (Nat.succ_ne_zero _)
    | cons line ls =>
      obtain ⟨⟨hr, hn⟩, he, hfirst, htail⟩ := between_cons_cons.1 h
      obtain ⟨hlines, hendings⟩ := ih htail
      have hhead : e = "\r" → (interleave ls es).toList.head? ≠ some '\n' := fun hret =>
        htail.head?_interleave_ne fun hempty => hfirst ⟨hret, hempty⟩
      rw [interleave, String.toList_append, String.toList_append]
      constructor
      · rw [cutLines_append hr hn (cutLines_ending he hhead), hlines, List.map_cons]
      · rw [cutEndings_append hr hn, cutEndings_ending he hhead, hendings]

/-! ## Every text is an interleaving -/

theorem toList_interleave_extendFirst (c : Char) {ls : List (List Char)} (hne : ls ≠ [])
    (es : List String) : (interleave ((extendFirst c ls).map String.ofList) es).toList =
      c :: (interleave (ls.map String.ofList) es).toList := by
  obtain ⟨line, ls, rfl⟩ := List.exists_cons_of_ne_nil hne
  rw [extendFirst, List.map_cons, List.map_cons]
  cases es with
  | nil => simp [interleave]
  | cons e es => simp [interleave]

/-- In the words of `cutLines`, a single character is no part of a longer ending. -/
theorem head?_ne {c : Char} {cs : List Char} (h : ∀ cs', c = '\r' → cs = '\n' :: cs' → False) :
    c = '\r' → cs.head? ≠ some '\n' := by
  intro hret hhead
  obtain ⟨cs', rfl⟩ := List.head?_eq_some_iff.1 hhead
  exact h cs' hret rfl

/-- **A text is its lines** with its endings between them. -/
theorem toList_interleave_cutEndings (cs : List Char) :
    (interleave ((cutLines cs).map String.ofList) (cutEndings cs)).toList = cs := by
  fun_induction cutLines cs with
  | case1 => rfl
  | case2 cs ih =>
    rw [cutEndings, List.map_cons, interleave, String.toList_append, String.toList_append, ih]
    simp
  | case3 c cs hne hc ih =>
    rw [cutEndings_single hc (head?_ne hne), List.map_cons, interleave, String.toList_append,
      String.toList_append, ih]
    simp
  | case4 c cs hne hc ih =>
    rw [cutEndings_cons (not_or.1 hc).1 (not_or.1 hc).2,
      toList_interleave_extendFirst c (cutLines_ne_nil cs), ih]

theorem between_extendFirst {c : Char} (hc : ¬(c = '\r' ∨ c = '\n')) {ls : List (List Char)}
    {es : List String} (h : Between (ls.map String.ofList) es) (hne : ls ≠ []) :
    Between ((extendFirst c ls).map String.ofList) es := by
  obtain ⟨line, ls, rfl⟩ := List.exists_cons_of_ne_nil hne
  rw [not_or] at hc
  have hwhole : ∀ {line : List Char}, '\r' ∉ (String.ofList line).toList ∧
      '\n' ∉ (String.ofList line).toList → '\r' ∉ (String.ofList (c :: line)).toList ∧
      '\n' ∉ (String.ofList (c :: line)).toList := by
    rintro line ⟨hr, hn⟩
    simp_all [Ne.symm hc.1, Ne.symm hc.2]
  rw [extendFirst, List.map_cons]
  rw [List.map_cons] at h
  cases es with
  | nil =>
    obtain rfl : ls = [] := by simpa using h.length
    exact between_singleton.2 (hwhole (between_singleton.1 h))
  | cons e es =>
    obtain ⟨hline, hrest⟩ := between_cons_cons.1 h
    exact between_cons_cons.2 ⟨hwhole hline, hrest⟩

/-- **The endings of a text** can stand between its lines. -/
theorem between_cutEndings (cs : List Char) :
    Between ((cutLines cs).map String.ofList) (cutEndings cs) := by
  fun_induction cutLines cs with
  | case1 => exact between_singleton.2 (by simp)
  | case2 cs ih =>
    rw [cutEndings, List.map_cons]
    exact between_cons_cons.2 ⟨by simp, by decide, by simp, ih⟩
  | case3 c cs hne hc ih =>
    have hhead := head?_ne hne
    rw [cutEndings_single hc hhead, List.map_cons]
    refine between_cons_cons.2 ⟨by simp, ?_, ?_, ih⟩
    · rcases hc with rfl | rfl <;> decide
    · -- an empty line with a line feed after it is the front of the text
      rintro ⟨hret, hfeed⟩
      have hfront := head?_interleave hfeed
      rw [toList_interleave_cutEndings] at hfront
      exact hhead (by simpa using congrArg String.toList hret) hfront
  | case4 c cs hne hc ih =>
    rw [cutEndings_cons (not_or.1 hc).1 (not_or.1 hc).2]
    exact between_extendFirst hc ih (cutLines_ne_nil cs)

/-! ## Both directions -/

/-- **Cutting is the inverse of joining.** The lines of lines with endings between them are these
lines, where no carriage return is taken together with a line feed after it; and every text has its
lines with endings between them in one way only. -/
theorem lines_interleave_unique :
    (∀ ls es, Between ls es → lines (interleave ls es) = ls) ∧
      ∀ text, ∃! es, Between (lines text) es ∧ interleave (lines text) es = text := by
  constructor
  · intro ls es h
    rw [lines, (cut_interleave h).1, List.map_map]
    simp [Function.comp_def]
  · intro text
    refine ⟨cutEndings text.toList, ⟨between_cutEndings _, ?_⟩, ?_⟩
    · rw [← String.toList_inj]
      exact toList_interleave_cutEndings text.toList
    · rintro es ⟨hes, htext⟩
      have hcut := (cut_interleave hes).2
      rwa [htext, eq_comm] at hcut

/-- Between two carriage returns the empty line is found, also with a line feed after the second. -/
theorem lines_interleave_unique_sample :
    Between ["", "a", "", "", "b", ""] ["\n", "\r", "\r\n", "\r", "\r"] ∧
      interleave ["", "a", "", "", "b", ""] ["\n", "\r", "\r\n", "\r", "\r"] =
        "\na\r\r\n\rb\r" ∧
      lines "\na\r\r\n\rb\r" = ["", "a", "", "", "b", ""] := by
  have h : Between ["", "a", "", "", "b", ""] ["\n", "\r", "\r\n", "\r", "\r"] := by
    simp [between_cons_cons, between_singleton, endings]
  have htext : interleave ["", "a", "", "", "b", ""] ["\n", "\r", "\r\n", "\r", "\r"] =
      "\na\r\r\n\rb\r" := by decide +kernel
  have hlines := lines_interleave_unique.1 _ _ h
  rw [htext] at hlines
  exact ⟨h, htext, hlines⟩

end BlockSlots.Text
