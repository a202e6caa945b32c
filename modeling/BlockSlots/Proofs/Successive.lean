import BlockSlots.Proofs.Pieces

/-!
# Substitutions one after the other

A substitution that puts names in place of names moves no boundary between a name and its
neighbours: what is put in neither joins what stands next to it nor falls apart. So two of them in a
row do what a single one does (`andThen`), and one that keeps different names of a line apart can be
taken back (`undo`).

* `substitute_substitute`: two substitutions in a row.
* `substitute_eq_self`: a substitution that keeps every name of a line keeps the line.
* `undo_image`: what `undo` gives for a new name.
* `substitute_functorial`: all of it, for a line.
-/

set_option autoImplicit false

namespace BlockSlots.Text

/-- What stands in place of a name after a substitution. -/
def image (f : String → Option String) (t : String) : String := (f t).getD t

/-- The substitution that does what `f` does and then what `g` does. -/
def andThen (f g : String → Option String) (t : String) : Option String :=
  some (image g (image f t))

/-- Takes `f` back for the names `ts`: gives the first of them that `f` makes a name of. -/
def undo (ts : List String) (f : String → Option String) (s : String) : Option String :=
  ts.find? fun t => image f t = s

/-- Whatever `f` puts in place of a name is a name. -/
def GivesNames (f : String → Option String) : Prop :=
  ∀ t s, f t = some s → isName s.toList = true

section
variable {f g : String → Option String} {line : String}

theorem GivesNames.pieces (h : GivesNames f) (line : String) :
    pieces (substitute f line).toList = (pieces line.toList).map (Piece.rename (image f)) :=
  pieces_substitute (fun t s _ hs => h t s hs) line

theorem GivesNames.names (h : GivesNames f) (line : String) :
    names (substitute f line) = (names line).map (image f) :=
  names_substitute (fun t s _ hs => h t s hs) line

/-- **Two substitutions in a row** are one, if the first puts in names. -/
theorem substitute_substitute (hf : GivesNames f) (g : String → Option String) (line : String) :
    substitute g (substitute f line) = substitute (andThen f g) line := by
  rw [← String.toList_inj, toList_substitute, hf.pieces, List.map_map, toList_substitute]
  exact congrArg (fun rename => ((pieces line.toList).map rename).flatMap Piece.chars)
    (Piece.rename_comp (image f) (image g))

theorem substitute_eq_self (h : ∀ t ∈ names line, image f t = t) : substitute f line = line := by
  calc substitute f line
      = substitute (fun _ => none) line := substitute_congr h
    _ = line := substitute_none line

/-- If different names become different, each of them is found again. -/
theorem undo_image {ts : List String}
    (hinj : ∀ t ∈ ts, ∀ u ∈ ts, image f t = image f u → t = u) {t : String} (ht : t ∈ ts) :
    undo ts f (image f t) = some t := by
  cases hfind : undo ts f (image f t) with
  | none =>
    rw [undo, List.find?_eq_none] at hfind
    exact absurd (decide_eq_true rfl) (hfind t ht)
  | some u =>
    have hu : image f u = image f t := by simpa using List.find?_some hfind
    rw [hinj u (List.mem_of_find?_eq_some hfind) t ht hu]

end

/-- **Substitution is functorial**, as long as it puts in names. The names of the new line are the
images of the names of the old one, in order, and another substitution of the new line is one of the
old line. A substitution that keeps different names of the line apart has an inverse on them, and
every inverse takes it back. -/
theorem substitute_functorial {f : String → Option String} (hf : GivesNames f)
    (g : String → Option String) (line : String) :
    names (substitute f line) = (names line).map (image f) ∧
    substitute g (substitute f line) = substitute (andThen f g) line ∧
    ((∀ t ∈ names line, ∀ u ∈ names line, image f t = image f u → t = u) →
      (∀ t ∈ names line, undo (names line) f (image f t) = some t) ∧
      ∀ back, (∀ t ∈ names line, back (image f t) = some t) →
        substitute back (substitute f line) = line) := by
  refine ⟨hf.names line, substitute_substitute hf g line, fun hinj => ⟨?_, ?_⟩⟩
  · exact fun t ht => undo_image hinj ht
  · intro back hback
    rw [substitute_substitute hf]
    refine substitute_eq_self fun t ht => ?_
    show (back (image f t)).getD (image f t) = t
    rw [hback t ht]
    rfl

theorem substitute_functorial_sample :
    names (substitute (fun t => if t = "x" then some "y1" else none) "é1x-0x+z") =
      ["y1", "y1", "z"] ∧
    substitute (undo ["x", "x", "z"] fun t => if t = "x" then some "y1" else none)
      (substitute (fun t => if t = "x" then some "y1" else none) "é1x-0x+z") = "é1x-0x+z" := by
  have hf : GivesNames fun t => if t = "x" then some "y1" else none := by
    intro t s hs
    dsimp only at hs
    split at hs <;> cases hs
    decide
  have hnames : names "é1x-0x+z" = ["x", "x", "z"] := by decide +kernel
  obtain ⟨himage, -, hback⟩ := substitute_functorial hf (fun _ => none) "é1x-0x+z"
  rw [hnames] at himage hback
  obtain ⟨hundo, htake⟩ := hback (by decide)
  exact ⟨himage, htake _ hundo⟩

end BlockSlots.Text
