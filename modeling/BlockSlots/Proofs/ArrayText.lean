import BlockSlots.Proofs.CellArrays
import Mathlib.Data.List.Sort

/-!
# The text for arrays

Where slots are cells of arrays, the text at the ends of a block tells the arrays, and these come
from the cells that the listed bindings have (`Binding.cellKey`). So the text depends neither on the
order in which bindings are listed nor on how often a cell is.

* `Fits.of_cells`: arrays that fit a list of bindings fit every list with the same cells.
* `Fits.unique`: there are no others, if a type number stands for one type tag only.
* `text_of_cells`: what the text is.
-/

set_option autoImplicit false

namespace BlockSlots

/-- The cell of a binding: the number of its type tag, its place there, and the type tag. -/
def Binding.cellKey (b : Binding) : Nat × Nat × String := (b.slot.kind, b.slot.index, b.tag)

namespace CellArray

section
variable {arrays arrays' : List CellArray} {bindings others : List Binding}

theorem exists_cell (h : ∀ c, c ∈ bindings.map Binding.cellKey ↔ c ∈ others.map Binding.cellKey)
    {v : Binding} (hv : v ∈ bindings) :
    ∃ w ∈ others, w.slot.kind = v.slot.kind ∧ w.slot.index = v.slot.index ∧ w.tag = v.tag := by
  obtain ⟨w, hw, hcell⟩ := List.mem_map.1 ((h v.cellKey).1 (List.mem_map_of_mem hv))
  simp only [Binding.cellKey, Prod.mk.injEq] at hcell
  exact ⟨w, hw, hcell⟩

/-- Arrays that fit a list of bindings fit every list with the same cells. -/
theorem Fits.of_cells (hfits : Fits arrays bindings)
    (h : ∀ c, c ∈ bindings.map Binding.cellKey ↔ c ∈ others.map Binding.cellKey) :
    Fits arrays others where
  ordered := hfits.ordered
  room := by
    intro w hw
    obtain ⟨v, hv, hkind, hindex, -⟩ := exists_cell (fun c => (h c).symm) hw
    rw [← hkind, ← hindex]
    exact hfits.room v hv
  tagged := by
    intro a ha
    obtain ⟨v, hv, hkind, htag⟩ := hfits.tagged a ha
    obtain ⟨w, hw, hkind', -, htag'⟩ := exists_cell h hv
    exact ⟨w, hw, hkind'.trans hkind, htag'.trans htag⟩
  tight := by
    intro a ha
    obtain ⟨v, hv, hkind, hsize⟩ := hfits.tight a ha
    obtain ⟨w, hw, hkind', hindex, -⟩ := exists_cell h hv
    exact ⟨w, hw, hkind'.trans hkind, by rw [hindex, hsize]⟩

/-- Of two lists of arrays that fit the same bindings, no array is longer in the one. -/
theorem Fits.size_le (h : Fits arrays bindings) (h' : Fits arrays' bindings) {a a' : CellArray}
    (ha : a ∈ arrays) (ha' : a' ∈ arrays') (hkind : a.kind = a'.kind) : a.size ≤ a'.size := by
  obtain ⟨v, hv, hvkind, hsize⟩ := h.tight a ha
  have hlt := h'.index_lt ha' hv (hvkind.trans hkind)
  omega

/-- The type tag of an array is that of every binding in it. -/
theorem Fits.tag_eq (h : Fits arrays bindings)
    (htag : ∀ v ∈ bindings, ∀ w ∈ bindings, v.slot.kind = w.slot.kind → v.tag = w.tag)
    {a : CellArray} (ha : a ∈ arrays) {v : Binding} (hv : v ∈ bindings)
    (hkind : v.slot.kind = a.kind) : v.tag = a.tag := by
  obtain ⟨w, hw, hwkind, hwtag⟩ := h.tagged a ha
  rw [htag v hv w hw (hkind.trans hwkind.symm), hwtag]

theorem Fits.subset (h : Fits arrays bindings) (h' : Fits arrays' bindings)
    (htag : ∀ v ∈ bindings, ∀ w ∈ bindings, v.slot.kind = w.slot.kind → v.tag = w.tag) :
    arrays ⊆ arrays' := by
  intro a ha
  obtain ⟨v, hv, hkind, hvtag⟩ := h.tagged a ha
  obtain ⟨a', ha', hkind', -⟩ := h'.room v hv
  have hkinds : a.kind = a'.kind := (hkind'.trans hkind).symm
  have hsize : a.size = a'.size :=
    Nat.le_antisymm (h.size_le h' ha ha' hkinds) (h'.size_le h ha' ha hkinds.symm)
  have htags : a.tag = a'.tag := by rw [← hvtag, h'.tag_eq htag ha' hv hkind'.symm]
  have heq : a = a' := by
    cases a
    cases a'
    simp_all
  rwa [heq]

/-- **Only one list of arrays fits bindings**, if a type number stands for one type tag only. -/
theorem Fits.unique (h : Fits arrays bindings) (h' : Fits arrays' bindings)
    (htag : ∀ v ∈ bindings, ∀ w ∈ bindings, v.slot.kind = w.slot.kind → v.tag = w.tag) :
    arrays = arrays' := by
  have : Std.Antisymm fun a b : CellArray => a.kind < b.kind :=
    ⟨fun a b hab hba => absurd hab (Nat.lt_asymm hba)⟩
  have : Std.Irrefl fun a b : CellArray => a.kind < b.kind := ⟨fun a => Nat.lt_irrefl _⟩
  exact h.ordered.eq_of_mem_iff h'.ordered fun a =>
    ⟨fun ha => h.subset h' htag ha, fun ha => h'.subset h htag ha⟩

end

/-- **The text for arrays.** Bindings with the same cells have the same text, at both ends of a
block. It tells of each type number that is listed, in increasing order and once: first all
allocations, of just as many cells as reach the last one listed, then all checks; and the releases
in the same order. -/
theorem text_of_cells {bindings others : List Binding}
    (htag : ∀ v ∈ bindings, ∀ w ∈ bindings, v.slot.kind = w.slot.kind → v.tag = w.tag)
    (hcells : ∀ c, c ∈ bindings.map Binding.cellKey ↔ c ∈ others.map Binding.cellKey) :
    dialect.enter bindings = dialect.enter others ∧
      dialect.leave bindings = dialect.leave others ∧
      ∃ arrays : List CellArray,
        arrays.Pairwise (·.kind < ·.kind) ∧
        (∀ k, k ∈ arrays.map (·.kind) ↔ ∃ v ∈ bindings, v.slot.kind = k) ∧
        (∀ a ∈ arrays, ∀ v ∈ bindings, v.slot.kind = a.kind →
          v.tag = a.tag ∧ 1 + v.slot.index ≤ a.size) ∧
        (∀ a ∈ arrays, ∃ v ∈ bindings, v.slot.kind = a.kind ∧ a.size = 1 + v.slot.index) ∧
        dialect.enter bindings = " ".intercalate
          (arrays.map (fun a => a.tag ++ "* v" ++ toString a.kind ++ " = malloc(" ++
              toString a.size ++ " * sizeof(" ++ a.tag ++ "));") ++
            arrays.map fun a => "if(v" ++ toString a.kind ++ " == NULL) exit(1);") ∧
        dialect.leave bindings =
          " ".intercalate (arrays.map fun a => "free(v" ++ toString a.kind ++ ");") := by
  have hfits := fits_ofBindings bindings
  have hsame : ofBindings bindings = ofBindings others := by
    have hothers := (fits_ofBindings others).of_cells fun c => (hcells c).symm
    exact hfits.unique hothers htag
  refine ⟨?_, ?_, ofBindings bindings, hfits.ordered, fun k => ?_, fun a ha v hv hkind => ?_,
    fun a ha => ?_, enter_eq bindings, leave_eq bindings⟩
  · rw [enter_eq, hsame, ← enter_eq]
  · rw [leave_eq, hsame, ← leave_eq]
  · rw [List.mem_map]
    constructor
    · rintro ⟨a, ha, rfl⟩
      obtain ⟨v, hv, hkind, -⟩ := hfits.tagged a ha
      exact ⟨v, hv, hkind⟩
    · rintro ⟨v, hv, rfl⟩
      obtain ⟨a, ha, hkind, -⟩ := hfits.room v hv
      exact ⟨a, ha, hkind⟩
  · have hlt := hfits.index_lt ha hv hkind
    exact ⟨hfits.tag_eq htag ha hv hkind, by omega⟩
  · obtain ⟨v, hv, hkind, hsize⟩ := hfits.tight a ha
    exact ⟨v, hv, hkind, by omega⟩

/-- Three cells in two arrays, listed in another order and one of them twice. -/
theorem text_of_cells_sample :
    let a : Binding := ⟨"a", "int", ⟨0, 0, 0⟩, true⟩
    let b : Binding := ⟨"b", "float", ⟨1, 1, 0⟩, false⟩
    let c : Binding := ⟨"c", "int", ⟨3, 0, 2⟩, true⟩
    (∀ v ∈ [c, b, a], ∀ w ∈ [c, b, a], v.slot.kind = w.slot.kind → v.tag = w.tag) ∧
      (∀ x, x ∈ [c, b, a].map Binding.cellKey ↔ x ∈ [a, c, b, a].map Binding.cellKey) ∧
      dialect.enter [c, b, a] = dialect.enter [a, c, b, a] ∧
      dialect.leave [c, b, a] = dialect.leave [a, c, b, a] := by
  intro a b c
  have htag : ∀ v ∈ [c, b, a], ∀ w ∈ [c, b, a], v.slot.kind = w.slot.kind → v.tag = w.tag := by
    decide
  have hcells : ∀ x, x ∈ [c, b, a].map Binding.cellKey ↔ x ∈ [a, c, b, a].map Binding.cellKey := by
    intro x
    simp only [List.map_cons, List.map_nil, List.mem_cons, List.not_mem_nil, or_false]
    tauto
  obtain ⟨henter, hleave, -⟩ := text_of_cells htag hcells
  exact ⟨htag, hcells, henter, hleave⟩

end CellArray

end BlockSlots
