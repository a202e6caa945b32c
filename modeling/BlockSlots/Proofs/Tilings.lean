import BlockSlots.Proofs.Resolution

/-!
# Lines as names and gaps

The names in a line can be found without a scan. The line is cut into its maximal runs of the
characters that can stand in a name; what is left of a run without its leading digits is a name
(`runNames`). A line is then gaps and names in turn (`Tiling`), and a substitution touches the names
alone.

* `runNames_append_cons`, `names_eq_runNames`: the names are those of the runs.
* `spell_ofPieces`, `names_ofPieces`, `alternates_ofPieces`: the pieces of a line make a tiling.
* `names_tiled`: names, gaps and substitutions of a line, and what is recorded and written for a
  plain line.
-/

set_option autoImplicit false

namespace BlockSlots

namespace Text

/-! ## Runs -/

/-- The maximal runs of characters that can stand in a name. -/
def runs (cs : List Char) : List (List Char) :=
  (cs.splitOnP fun c => !isNamePart c).filter (· ≠ [])

/-- What is left of the runs of a text without their leading digits, where something is left. -/
def runNames (cs : List Char) : List String :=
  (((runs cs).map (·.dropWhile Char.isDigit)).filter (· ≠ [])).map String.ofList

section
variable {cs run gap rest : List Char} {c : Char}

theorem isNameStart_of_isDigit (h : c.isDigit = true) : isNameStart c = false := by
  have hdigit : 0x30 ≤ c.toNat ∧ c.toNat ≤ 0x39 := Char.isDigit_iff_toNat.1 h
  rw [Bool.eq_false_iff]
  intro hstart
  rcases isNameStart_iff.1 hstart with hletter | rfl | rfl
  · omega
  · exact absurd hdigit (by decide)
  · exact absurd hdigit (by decide)

theorem runNames_append_cons (hc : isNamePart c = false) :
    runNames (run ++ c :: rest) = runNames run ++ runNames rest := by
  rw [runNames, runs, List.splitOnP_append_cons _ _ (by rw [hc]; rfl)]
  simp [runNames, runs]

theorem runNames_run (hrun : ∀ c ∈ run, isNamePart c = true) :
    runNames run = if run.dropWhile Char.isDigit = [] then []
      else [String.ofList (run.dropWhile Char.isDigit)] := by
  have hsingle : run.splitOnP (fun c => !isNamePart c) = [run] :=
    List.splitOnP_eq_singleton fun c hc => by rw [hrun c hc]; rfl
  rw [runNames, runs, hsingle]
  by_cases hne : run = []
  · subst hne
    rfl
  · by_cases hdrop : run.dropWhile Char.isDigit = []
    · simp [hne, hdrop]
    · simp [hne, hdrop]

/-! ## The names of a run -/

/-- The names in a text. -/
def namesOf (cs : List Char) : List String := (pieces cs).filterMap Piece.name?

theorem namesOf_gap (hgap : ∀ c ∈ gap, isNameStart c = false) :
    namesOf (gap ++ rest) = namesOf rest := by
  induction gap with
  | nil => rfl
  | cons c gap ih =>
    rw [List.cons_append, namesOf, pieces_cons (hgap c List.mem_cons_self),
      List.filterMap_cons_none rfl]
    exact ih fun d hd => hgap d (List.mem_cons_of_mem _ hd)

/-- A run holds one name, unless it is digits only. -/
theorem namesOf_run (hrun : ∀ c ∈ run, isNamePart c = true) (hend : endsName rest = true) :
    namesOf (run ++ rest) = runNames run ++ namesOf rest := by
  have hdigits : ∀ c ∈ run.takeWhile Char.isDigit, isNameStart c = false :=
    fun c hc => isNameStart_of_isDigit (List.mem_takeWhile_imp hc)
  rw [runNames_run hrun]
  conv_lhs => rw [← List.takeWhile_append_dropWhile (p := Char.isDigit) (l := run),
    List.append_assoc, namesOf_gap hdigits]
  cases hname : run.dropWhile Char.isDigit with
  | nil => rfl
  | cons c cs =>
    have hsub : ∀ d ∈ c :: cs, isNamePart d = true := fun d hd =>
      hrun d ((List.dropWhile_suffix _).mem (hname ▸ hd))
    have hdigit : c.isDigit = false := by
      have h := List.head?_dropWhile_not Char.isDigit run
      rw [hname] at h
      simpa using h
    have hstart : isNameStart c = true := by
      simpa [isNamePart, hdigit] using hsub c List.mem_cons_self
    have hc : isName (c :: cs) = true :=
      isName_cons.2 ⟨hstart, fun d hd => hsub d (List.mem_cons_of_mem _ hd)⟩
    rw [namesOf, pieces_append hc hend, if_neg (List.cons_ne_nil _ _)]
    rfl

/-- **The names in a text are those of its runs.** The induction carries the run that is read. -/
theorem namesOf_append (run cs : List Char) (hrun : ∀ c ∈ run, isNamePart c = true) :
    namesOf (run ++ cs) = runNames (run ++ cs) := by
  induction cs generalizing run with
  | nil => rw [namesOf_run hrun rfl, List.append_nil, namesOf, pieces_nil, List.filterMap_nil,
      List.append_nil]
  | cons c cs ih =>
    cases hc : isNamePart c with
    | true =>
      have hrun' : ∀ d ∈ run ++ [c], isNamePart d = true := by
        simpa [or_imp, forall_and, hc] using hrun
      simpa using ih _ hrun'
    | false =>
      have hstart : ∀ d ∈ [c], isNameStart d = false := by
        intro d hd
        rw [List.mem_singleton.1 hd]
        rw [isNamePart, Bool.or_eq_false_iff] at hc
        exact hc.1
      have hrest : namesOf (c :: cs) = runNames cs :=
        (namesOf_gap hstart).trans (ih [] (by simp))
      rw [runNames_append_cons hc, namesOf_run hrun (by rw [endsName, hc]; rfl), hrest]

end

theorem names_eq_runNames (line : String) : names line = runNames line.toList :=
  namesOf_append [] line.toList (by simp)

/-! ## Tilings -/

/-- A text as gaps and names in turn: what stands in front of the first name, and each name with
the gap after it. -/
structure Tiling where
  front : List Char
  parts : List (String × List Char)

namespace Tiling

/-- The names, from left to right. -/
def names (t : Tiling) : List String := t.parts.map (·.1)

/-- The gaps, from left to right: one more than there are names. -/
def gaps (t : Tiling) : List (List Char) := t.front :: t.parts.map (·.2)

/-- The gaps between two names. -/
def innerGaps (t : Tiling) : List (List Char) := (t.parts.map (·.2)).dropLast

/-- The characters of the text when each name is written as `f` says. -/
def spell (f : String → String) (t : Tiling) : List Char :=
  t.front ++ t.parts.flatMap fun p => (f p.1).toList ++ p.2

/-- No name starts in a gap, and there is something between two names. -/
structure Alternates (t : Tiling) : Prop where
  gaps : ∀ gap ∈ t.gaps, ∀ c ∈ gap, isNameStart c = false
  inner : ∀ gap ∈ t.innerGaps, gap ≠ []

/-- The tiling that pieces make: characters between two names join to a gap. -/
def ofPieces : List Piece → Tiling
  | [] => ⟨[], []⟩
  | .other c :: ps => ⟨c :: (ofPieces ps).front, (ofPieces ps).parts⟩
  | .name t :: ps => ⟨[], (t, (ofPieces ps).front) :: (ofPieces ps).parts⟩

theorem names_ofPieces (ps : List Piece) : (ofPieces ps).names = ps.filterMap Piece.name? := by
  induction ps with
  | nil => rfl
  | cons p ps ih =>
    cases p with
    | name t =>
      rw [List.filterMap_cons_some (f := Piece.name?) (b := t) rfl, ← ih]
      rfl
    | other c =>
      rw [List.filterMap_cons_none rfl, ← ih]
      rfl

theorem spell_ofPieces (f : String → String) (ps : List Piece) :
    (ofPieces ps).spell f = (ps.map (Piece.rename f)).flatMap Piece.chars := by
  induction ps with
  | nil => rfl
  | cons p ps ih =>
    rw [List.map_cons, List.flatMap_cons, ← ih]
    cases p with
    | name t => simp [ofPieces, spell, Piece.rename, Piece.chars]
    | other c => simp [ofPieces, spell, Piece.rename, Piece.chars]

theorem spell_id_ofPieces (ps : List Piece) :
    (ofPieces ps).spell id = ps.flatMap Piece.chars := by
  rw [spell_ofPieces, Piece.rename_id, List.map_id]

/-- Where nothing stands in front of the first name, a name is the first piece. -/
theorem startsName_of_front {ps : List Piece} (h : Separated ps)
    (hfront : (ofPieces ps).front = []) (hparts : (ofPieces ps).parts ≠ []) :
    startsName (ps.flatMap Piece.chars) = true := by
  cases ps with
  | nil => exact absurd rfl hparts
  | cons p ps =>
    cases p with
    | name t => exact startsName_of_isName h.1 _
    | other c => cases hfront

/-- **Separated pieces make gaps and names in turn.** -/
theorem alternates_ofPieces {ps : List Piece} (h : Separated ps) : (ofPieces ps).Alternates := by
  induction ps with
  | nil => exact ⟨by simp [ofPieces, gaps], by simp [ofPieces, innerGaps]⟩
  | cons p ps ih =>
    cases p with
    | other c =>
      have ht := ih h.2
      have hgaps := ht.gaps
      refine ⟨?_, ht.inner⟩
      simp only [ofPieces, gaps, List.forall_mem_cons] at hgaps ⊢
      exact ⟨⟨h.1, hgaps.1⟩, hgaps.2⟩
    | name t =>
      obtain ⟨-, hend, hps⟩ := h
      have ht := ih hps
      refine ⟨?_, ?_⟩
      · simpa [ofPieces, gaps] using ht.gaps
      · by_cases hparts : (ofPieces ps).parts = []
        · simp [ofPieces, innerGaps, hparts]
        · -- the name ends, so the next one does not start at once
          have hfront : (ofPieces ps).front ≠ [] := by
            intro hfront
            rw [endsName_of_startsName (startsName_of_front hps hfront hparts)] at hend
            cases hend
          have hsplit : (ofPieces (.name t :: ps)).innerGaps =
              (ofPieces ps).front :: (ofPieces ps).innerGaps := by
            simp [ofPieces, innerGaps, List.dropLast_cons_of_ne_nil, hparts]
          rw [hsplit, List.forall_mem_cons]
          exact ⟨hfront, ht.inner⟩

end Tiling

/-- A substitution writes the names anew, and keeps the gaps. -/
theorem toList_substitute_eq_spell (f : String → Option String) (line : String) :
    (substitute f line).toList =
      (Tiling.ofPieces (pieces line.toList)).spell fun t => (f t).getD t := by
  rw [toList_substitute, Tiling.spell_ofPieces]

end Text

open Text

/-- What a name stands for in the innermost open block. Outside of all blocks it is nothing. -/
def Nest.resolve? (nest : Nest) (name : String) : Option Ref :=
  nest.current?.bind (·.visible? name)

theorem Draft.usesIn_eq_graph (nest : Nest) (line : String) :
    usesIn nest line = .ofList (Table.graph nest.resolve? (names line)) := rfl

/-- **The names of a line** are those of its maximal runs. The line is gaps and names in turn, and a
substitution changes the names alone. For a plain line, those of its names are recorded that stand
for a binding, each with that binding; and wherever such a name stands the line is written with the
use of the binding, and is kept everywhere else. -/
theorem names_tiled (line : String) :
    names line = runNames line.toList ∧
    ∃ t : Tiling, t.Alternates ∧ t.names = names line ∧ t.spell id = line.toList ∧
      (∀ f, (substitute f line).toList = t.spell fun name => (f name).getD name) ∧
      ∀ nest : Nest,
        (Draft.usesIn nest line).entries = Table.graph nest.resolve? t.names.eraseDups ∧
        ∀ g ledger indent,
          (Entry.written g ledger ⟨indent, .plain line (Draft.usesIn nest line)⟩).toList =
            indent.toList ++ t.spell fun name =>
              (((nest.resolve? name).bind ledger.binding?).map g.use).getD name := by
  have hnames : (Tiling.ofPieces (pieces line.toList)).names = names line :=
    Tiling.names_ofPieces _
  refine ⟨names_eq_runNames line, .ofPieces (pieces line.toList),
    Tiling.alternates_ofPieces (separated_pieces _), hnames, ?_, ?_, fun nest => ⟨?_, ?_⟩⟩
  · rw [Tiling.spell_id_ofPieces, chars_pieces]
  · exact fun f => toList_substitute_eq_spell f line
  · rw [Draft.usesIn_eq_graph, Table.ofList_graph, hnames]
  · intro g ledger indent
    rw [Draft.usesIn_eq_graph, written_plain_graph, String.toList_append,
      toList_substitute_eq_spell]

example : runNames "0xFF = é1y + 12;".toList = ["xFF", "y"] := by decide +kernel

end BlockSlots
