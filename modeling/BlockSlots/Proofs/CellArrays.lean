import BlockSlots.Language.CellArrays
import Mathlib.Data.List.Induction
import Mathlib.Data.List.Nodup

/-!
# Arrays for a list of bindings

What `CellArray.ofBindings` makes of a list of bindings: one array for each number of a type tag, in
increasing order, that reaches just as far as the last cell that is listed.

* `Fits`: arrays of this kind for some bindings. There is one for each number (`eq_of_kind_eq`), and
  every cell listed lies in it (`Fits.index_lt`).
* `Fits.insert`: making room for one more binding keeps this.
* `fits_ofBindings`: so the arrays for a list of bindings fit the list.
* `enter_eq`, `leave_eq`: the text at the ends of a block, spelled out.
-/

set_option autoImplicit false

namespace BlockSlots

namespace CellArray

/-- `arrays` have room for the bindings of a list, and for nothing else. -/
structure Fits (arrays : List CellArray) (bindings : List Binding) : Prop where
  /-- The arrays stand in the order of the numbers of their type tags. -/
  ordered : arrays.Pairwise (·.kind < ·.kind)
  /-- Each binding has a cell in one of them. -/
  room : ∀ v ∈ bindings, ∃ a ∈ arrays, a.kind = v.slot.kind ∧ v.slot.index < a.size
  /-- The type tag of an array is that of a binding in it, -/
  tagged : ∀ a ∈ arrays, ∃ v ∈ bindings, v.slot.kind = a.kind ∧ v.tag = a.tag
  /-- and so is its last cell. -/
  tight : ∀ a ∈ arrays, ∃ v ∈ bindings, v.slot.kind = a.kind ∧ v.slot.index + 1 = a.size

theorem eq_of_kind_eq {arrays : List CellArray} (h : arrays.Pairwise (·.kind < ·.kind))
    {a a' : CellArray} (ha : a ∈ arrays) (ha' : a' ∈ arrays) (hkind : a.kind = a'.kind) :
    a = a' := by
  have hnodup : (arrays.map (·.kind)).Nodup := by
    rw [List.nodup_iff_pairwise_ne, List.pairwise_map]
    exact h.imp fun hlt => Nat.ne_of_lt hlt
  exact List.inj_on_of_nodup_map hnodup ha ha' hkind

section
variable {arrays : List CellArray} {bindings : List Binding} {a : CellArray} {b v : Binding}

theorem Fits.index_lt (h : Fits arrays bindings) (ha : a ∈ arrays) (hv : v ∈ bindings)
    (hkind : v.slot.kind = a.kind) : v.slot.index < a.size := by
  obtain ⟨a', ha', hkind', hlt⟩ := h.room v hv
  have heq : a = a' := eq_of_kind_eq h.ordered ha ha' (by rw [hkind', hkind])
  rw [heq]
  exact hlt

/-! ## Making room for a binding -/

theorem kind_insert_cases {k : Nat} (h : ∃ a ∈ insert b arrays, a.kind = k) :
    k = b.slot.kind ∨ ∃ a ∈ arrays, a.kind = k := by
  obtain ⟨a, ha, rfl⟩ := h
  induction arrays with
  | nil =>
    rw [insert, List.mem_singleton] at ha
    exact .inl (congrArg CellArray.kind ha)
  | cons first rest ih =>
    rw [insert] at ha
    split at ha
    · rcases List.mem_cons.1 ha with rfl | ha
      · exact .inl rfl
      · exact .inr ⟨a, ha, rfl⟩
    · split at ha
      · next heq =>
        rcases List.mem_cons.1 ha with rfl | ha
        · exact .inl heq.symm
        · exact .inr ⟨a, List.mem_cons_of_mem _ ha, rfl⟩
      · rcases List.mem_cons.1 ha with rfl | ha
        · exact .inr ⟨a, List.mem_cons_self, rfl⟩
        · rcases ih ha with h | ⟨a', ha', hkind⟩
          · exact .inl h
          · exact .inr ⟨a', List.mem_cons_of_mem _ ha', hkind⟩

theorem ordered_insert (h : arrays.Pairwise (·.kind < ·.kind)) (b : Binding) :
    (insert b arrays).Pairwise (·.kind < ·.kind) := by
  induction arrays with
  | nil => exact List.pairwise_singleton _ _
  | cons first rest ih =>
    obtain ⟨hfirst, hrest⟩ := List.pairwise_cons.1 h
    rw [insert]
    split
    · next hlt =>
      apply List.pairwise_cons.2
      refine ⟨?_, h⟩
      intro a ha
      show b.slot.kind < a.kind
      rcases List.mem_cons.1 ha with rfl | ha
      · exact hlt
      · exact Nat.lt_trans hlt (hfirst a ha)
    · next hle =>
      split
      · exact List.pairwise_cons.2 ⟨hfirst, hrest⟩
      · next hne =>
        apply List.pairwise_cons.2
        refine ⟨?_, ih hrest⟩
        intro a ha
        rcases kind_insert_cases ⟨a, ha, rfl⟩ with hkind | ⟨a', ha', hkind⟩
        · omega
        · rw [← hkind]
          exact hfirst a' ha'

/-- What was there has at least the room that it had. -/
theorem exists_mem_insert_of_mem (b : Binding) (h : a ∈ arrays) :
    ∃ a' ∈ insert b arrays, a'.kind = a.kind ∧ a.size ≤ a'.size := by
  induction arrays with
  | nil => cases h
  | cons first rest ih =>
    rw [insert]
    split
    · exact ⟨a, List.mem_cons_of_mem _ h, rfl, Nat.le_refl _⟩
    · split
      · rcases List.mem_cons.1 h with rfl | h
        · exact ⟨_, List.mem_cons_self, rfl, Nat.le_max_left _ _⟩
        · exact ⟨a, List.mem_cons_of_mem _ h, rfl, Nat.le_refl _⟩
      · rcases List.mem_cons.1 h with rfl | h
        · exact ⟨a, List.mem_cons_self, rfl, Nat.le_refl _⟩
        · obtain ⟨a', ha', hkind, hsize⟩ := ih h
          exact ⟨a', List.mem_cons_of_mem _ ha', hkind, hsize⟩

theorem exists_mem_insert_self (b : Binding) (arrays : List CellArray) :
    ∃ a ∈ insert b arrays, a.kind = b.slot.kind ∧ b.slot.index < a.size := by
  induction arrays with
  | nil => exact ⟨_, List.mem_singleton_self _, rfl, Nat.lt_succ_self _⟩
  | cons first rest ih =>
    rw [insert]
    split
    · exact ⟨_, List.mem_cons_self, rfl, Nat.lt_succ_self _⟩
    · split
      · next heq => exact ⟨_, List.mem_cons_self, heq.symm, Nat.le_max_right _ _⟩
      · obtain ⟨a, ha, hkind, hlt⟩ := ih
        exact ⟨a, List.mem_cons_of_mem _ ha, hkind, hlt⟩

/-- An array is new, was there, or was made longer. -/
theorem mem_insert_cases (h : a ∈ insert b arrays) :
    a = ofBinding b ∨ a ∈ arrays ∨
      ∃ a' ∈ arrays, a'.kind = b.slot.kind ∧
        a = { a' with size := max a'.size (b.slot.index + 1) } := by
  induction arrays with
  | nil => exact .inl (List.mem_singleton.1 h)
  | cons first rest ih =>
    rw [insert] at h
    split at h
    · rcases List.mem_cons.1 h with rfl | h
      · exact .inl rfl
      · exact .inr (.inl h)
    · split at h
      · next heq =>
        rcases List.mem_cons.1 h with rfl | h
        · exact .inr (.inr ⟨first, List.mem_cons_self, heq.symm, rfl⟩)
        · exact .inr (.inl (List.mem_cons_of_mem _ h))
      · rcases List.mem_cons.1 h with rfl | h
        · exact .inr (.inl List.mem_cons_self)
        · rcases ih h with h | h | ⟨a', ha', hkind, h⟩
          · exact .inl h
          · exact .inr (.inl (List.mem_cons_of_mem _ h))
          · exact .inr (.inr ⟨a', List.mem_cons_of_mem _ ha', hkind, h⟩)

/-- **Making room for one more binding.** -/
theorem Fits.insert (h : Fits arrays bindings) (b : Binding) :
    Fits (insert b arrays) (bindings ++ [b]) where
  ordered := ordered_insert h.ordered b
  room := by
    intro v hv
    rcases List.mem_append.1 hv with hv | hv
    · obtain ⟨a, ha, hkind, hlt⟩ := h.room v hv
      obtain ⟨a', ha', hkind', hle⟩ := exists_mem_insert_of_mem b ha
      exact ⟨a', ha', hkind'.trans hkind, Nat.lt_of_lt_of_le hlt hle⟩
    · rw [List.mem_singleton.1 hv]
      exact exists_mem_insert_self b arrays
  tagged := by
    intro a ha
    have hlast : b ∈ bindings ++ [b] := List.mem_concat_self
    rcases mem_insert_cases ha with rfl | ha | ⟨a', ha', hkind, rfl⟩
    · exact ⟨b, hlast, rfl, rfl⟩
    · obtain ⟨v, hv, hvk, hvt⟩ := h.tagged a ha
      exact ⟨v, List.mem_append_left _ hv, hvk, hvt⟩
    · obtain ⟨v, hv, hvk, hvt⟩ := h.tagged a' ha'
      exact ⟨v, List.mem_append_left _ hv, hvk, hvt⟩
  tight := by
    intro a ha
    have hlast : b ∈ bindings ++ [b] := List.mem_concat_self
    rcases mem_insert_cases ha with rfl | ha | ⟨a', ha', hkind, rfl⟩
    · exact ⟨b, hlast, rfl, rfl⟩
    · obtain ⟨v, hv, hvk, hvs⟩ := h.tight a ha
      exact ⟨v, List.mem_append_left _ hv, hvk, hvs⟩
    · -- the last cell is that of the array before, or that of `b`
      obtain ⟨v, hv, hvk, hvs⟩ := h.tight a' ha'
      rcases Nat.le_total (b.slot.index + 1) a'.size with hle | hle
      · refine ⟨v, List.mem_append_left _ hv, hvk, ?_⟩
        show v.slot.index + 1 = max a'.size (b.slot.index + 1)
        omega
      · refine ⟨b, hlast, hkind.symm, ?_⟩
        show b.slot.index + 1 = max a'.size (b.slot.index + 1)
        omega

end

theorem ofBindings_concat (bindings : List Binding) (b : Binding) :
    ofBindings (bindings ++ [b]) = insert b (ofBindings bindings) := by
  simp [ofBindings]

/-- **The arrays for a list of bindings fit the list.** -/
theorem fits_ofBindings (bindings : List Binding) : Fits (ofBindings bindings) bindings := by
  induction bindings using List.reverseRecOn with
  | nil =>
    refine ⟨.nil, ?_, ?_, ?_⟩
    · intro v hv
      cases hv
    · intro a ha
      cases ha
    · intro a ha
      cases ha
  | append_singleton bindings b ih =>
    rw [ofBindings_concat]
    exact ih.insert b

/-! ## The text -/

theorem enter_eq (bindings : List Binding) : dialect.enter bindings = " ".intercalate
    ((ofBindings bindings).map (fun a => a.tag ++ "* v" ++ toString a.kind ++ " = malloc(" ++
        toString a.size ++ " * sizeof(" ++ a.tag ++ "));") ++
      (ofBindings bindings).map fun a => "if(v" ++ toString a.kind ++ " == NULL) exit(1);") := by
  have halloc : allocation = fun a => a.tag ++ "* v" ++ toString a.kind ++ " = malloc(" ++
      toString a.size ++ " * sizeof(" ++ a.tag ++ "));" := by
    funext a
    rw [← String.toList_inj]
    simp [allocation, arrayName]
  rw [← halloc]
  rfl

theorem leave_eq (bindings : List Binding) : dialect.leave bindings =
    " ".intercalate ((ofBindings bindings).map fun a => "free(v" ++ toString a.kind ++ ");") :=
  rfl

end CellArray

end BlockSlots
