import BlockSlots.Proofs.Admission
import BlockSlots.Proofs.Records
import BlockSlots.Proofs.Renaming

/-!
# The same block in two documents

After some lines of one document and some lines of another the same block may be open, under another
number and with other records (`Mirrors`). Then the same lines are accepted, and names stand for the
same but for the records.

* `Mirrors.admits_iff`: which lines are accepted.
* `Mirrors.usesAfter`, `Mirrors.current`: what a line uses, and the state of the block.
* `Entry.written_rename`: entries with other records are written alike where these show the same
  bindings.
* `lt_declared_of_mem_entryOf`: the records that an entry refers to.
-/

set_option autoImplicit false

namespace BlockSlots

open Text

/-! ## Entries with other records -/

namespace Entry

/-- The records that an entry refers to. -/
def refs (e : Entry) : List Ref :=
  match e.content with
  | .marked _ refs => refs
  | .plain _ uses => uses.values

/-- The entry with its records renamed. -/
def rename (ρ : Ref → Ref) (e : Entry) : Entry where
  indent := e.indent
  content :=
    match e.content with
    | .marked mark refs => .marked mark (refs.map ρ)
    | .plain line uses => .plain line (uses.map ρ)

variable {ρ : Ref → Ref} {ledger ledger' : Ledger} {e : Entry}

theorem written_rename (h : ∀ mark, ∀ r ∈ e.refs, ledger'.shown? mark (ρ r) = ledger.shown? mark r)
    (g : Dialect) : (e.rename ρ).written g ledger' = e.written g ledger := by
  obtain ⟨indent, content⟩ := e
  cases content with
  | marked mark shown =>
    have hshown : (shown.map ρ).filterMap (ledger'.shown? mark) =
        shown.filterMap (ledger.shown? mark) := by
      rw [List.filterMap_map]
      exact List.filterMap_congr fun r hr => h mark r hr
    rw [written, written, rename]
    dsimp only
    rw [hshown]
  | plain line uses =>
    have huses : (fun name => (((uses.map ρ).get? name).bind ledger'.binding?).map g.use) =
        fun name => ((uses.get? name).bind ledger.binding?).map g.use := by
      funext name
      rw [Table.get?_map]
      cases hu : uses.get? name with
      | none => rfl
      | some r =>
        have hr : r ∈ uses.values := List.mem_map_of_mem (Table.mem_entries_of_get? hu)
        exact congrArg (Option.map g.use) (h .declare r hr)
    rw [written, written, rename]
    dsimp only
    rw [huses]

theorem keepUsed_rename
    (h : ∀ mark, ∀ r ∈ e.refs, ledger'.shown? mark (ρ r) = ledger.shown? mark r) :
    (e.rename ρ).keepUsed ledger' = (e.keepUsed ledger).rename ρ := by
  obtain ⟨indent, content⟩ := e
  cases content with
  | marked mark shown =>
    rw [keepUsed, keepUsed, rename, rename]
    dsimp only
    rw [List.filter_map]
    refine congrArg (fun refs => Entry.mk indent (.marked mark (List.map ρ refs))) ?_
    refine List.filter_congr fun r hr => ?_
    rw [Function.comp_apply, Ledger.keeps_eq, Ledger.keeps_eq, h mark r hr]
  | plain line uses => rfl

theorem refs_keepUsed_subset : (e.keepUsed ledger).refs ⊆ e.refs := by
  obtain ⟨indent, content⟩ := e
  cases content with
  | marked mark shown => exact fun r hr => (List.mem_filter.1 hr).1
  | plain line uses => exact List.Subset.refl _

end Entry

/-! ## Mirrored blocks -/

/-- The innermost open block after `ls` is also that after `ls'`, with its number changed by `σ` and
its records by `ρ`; or no block is open after either. -/
structure Mirrors (σ : Nat → Nat) (ρ : Ref → Ref) (ls ls' : List Line) : Prop where
  innermost : innermost? ls' = (innermost? ls).map σ
  history : ∀ b, innermost? ls = some b → history ls' (σ b) = (history ls b).map (Act.rename ρ)

section
variable {σ : Nat → Nat} {ρ : Ref → Ref} {ls ls' : List Line}

theorem Mirrors.resolve? (h : Mirrors σ ρ ls ls') (name : String) :
    resolve? ls' name = (resolve? ls name).map ρ := by
  rw [BlockSlots.resolve?, BlockSlots.resolve?, h.innermost]
  cases hi : innermost? ls with
  | none => rfl
  | some b =>
    rw [Option.map_some, Option.bind_some, Option.bind_some, h.history b hi, standing_rename,
      List.head?_map]

theorem Mirrors.usesAfter (h : Mirrors σ ρ ls ls') (line : String) :
    usesAfter ls' line = (usesAfter ls line).map ρ := by
  rw [BlockSlots.usesAfter, BlockSlots.usesAfter, Table.ofList_graph, Table.ofList_graph]
  refine congrArg Table.mk ?_
  rw [Table.graph, Table.graph, List.map_filterMap]
  refine congrArg (List.filterMap · _) (funext fun name => ?_)
  rw [h.resolve? name]
  cases BlockSlots.resolve? ls name <;> rfl

theorem blockAt_of_history {b b' : Nat} (h : history ls' b' = (history ls b).map (Act.rename ρ)) :
    blockAt ls' b' = (blockAt ls b).rename ρ (entered (ls'.take b')) := by
  rw [blockAt, h]
  exact Block.ofActs_rename ρ _ _ _

theorem Mirrors.current (h : Mirrors σ ρ ls ls') : (innermost? ls').map (blockAt ls') =
    (innermost? ls).map fun b => (blockAt ls b).rename ρ (entered (ls'.take (σ b))) := by
  rw [h.innermost]
  cases hi : innermost? ls with
  | none => rfl
  | some b => exact congrArg some (blockAt_of_history (h.history b hi))

theorem releasable_rename {acts : List Act} {names : List String} :
    Releasable (acts.map (Act.rename ρ)) names ↔ Releasable acts names := by
  induction names generalizing acts with
  | nil => exact Iff.rfl
  | cons name names ih =>
    have hnext := @ih (acts ++ [.unbind name])
    rw [List.map_append] at hnext
    rw [Releasable, Releasable, standing_rename, ne_eq, List.map_eq_nil_iff]
    exact and_congr_right fun _ => hnext

/-- Where the same block is open, the same lines are accepted. -/
theorem Mirrors.admits_iff (h : Mirrors σ ρ ls ls') {settings : Settings} {line : String} :
    Admits settings ls' line ↔ Admits settings ls line := by
  have hopen : innermost? ls' ≠ none ↔ innermost? ls ≠ none := by
    rw [h.innermost, ne_eq, Option.map_eq_none_iff]
  refine exists_congr fun l => and_congr_right fun _ => ?_
  cases l with
  | enter indent => exact Iff.rfl
  | leave indent => exact hopen
  | declare indent items => exact and_congr_left fun _ => hopen
  | release indent names =>
    rw [Line.Admitted, Line.Admitted, h.innermost]
    cases hi : innermost? ls with
    | none => simp
    | some b => simp [h.history b hi, releasable_rename]
  | plain => exact Iff.rfl

end

/-! ## The records of an entry -/

theorem records_append_unbind (acts : List Act) (name : String) :
    records (acts ++ [.unbind name]) = records acts := by
  rw [records_append]
  exact List.append_nil _

theorem mem_records_of_released {id : Nat} {acts : List Act} {names : List String} {r : Ref}
    (h : r ∈ (Block.ofActs id acts).released names) : r ∈ records acts := by
  induction names generalizing acts with
  | nil => cases h
  | cons name names ih =>
    rw [Block.released, List.mem_append, Block.visible?_ofActs, ← Block.ofActs_concat] at h
    rcases h with h | h
    · exact mem_records_of_standing (List.mem_of_mem_head? (Option.mem_toList.1 h))
    · rw [← records_append_unbind acts name]
      exact ih h

theorem lt_declared_of_mem_take {ls : List Line} {k b : Nat} {r : Ref}
    (h : r ∈ records (history (ls.take k) b)) : r < declared ls :=
  lt_declared_of_mem_records (((history_take_isPrefix ls k b).filterMap Act.ref?).subset h)

theorem declared_take_add_le {ls : List Line} {k : Nat} {l : Line} (hk : ls[k]? = some l) :
    declared (ls.take k) + l.declares ≤ declared ls := by
  obtain ⟨hlt, hget⟩ := List.getElem?_eq_some_iff.1 hk
  have hnext : ls.take (k + 1) = ls.take k ++ [l] := by
    rw [List.take_succ_eq_append_getElem hlt, hget]
  have hall := declared_append (ls.take (k + 1)) (ls.drop (k + 1))
  rw [List.take_append_drop, hnext, declared_concat] at hall
  omega

/-- An entry refers to records of the document. -/
theorem lt_declared_of_mem_entryOf {ls : List Line} {k : Nat} {l : Line} (hk : ls[k]? = some l)
    {text : String} {r : Ref} (h : r ∈ (entryOf ls k text l).refs) : r < declared ls := by
  cases l with
  | enter indent =>
    rw [entryOf, Entry.refs] at h
    dsimp only at h
    split at h
    · cases h
    · exact lt_declared_of_mem_records (mem_records_of_mem_refs h)
  | leave indent =>
    rw [entryOf, Entry.refs] at h
    cases hi : innermost? (ls.take k) with
    | none => rw [hi] at h; cases h
    | some b => rw [hi] at h; exact lt_declared_of_mem_take (mem_records_of_mem_refs h)
  | declare indent items =>
    have hlt := (List.mem_range'_1.1 h).2
    exact Nat.lt_of_lt_of_le hlt (declared_take_add_le hk)
  | release indent names =>
    rw [entryOf, Entry.refs] at h
    cases hi : innermost? (ls.take k) with
    | none => rw [hi] at h; cases h
    | some b => rw [hi] at h; exact lt_declared_of_mem_take (mem_records_of_released h)
  | plain =>
    obtain ⟨name, -, hr⟩ := mem_values_usesAfter.1 h
    obtain ⟨b, -, hs⟩ := resolve?_eq_some_iff.1 hr
    exact lt_declared_of_mem_take (mem_records_of_standing (List.mem_of_mem_head? hs))

end BlockSlots
