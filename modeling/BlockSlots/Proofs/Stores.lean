import Mathlib.Data.List.Induction
import BlockSlots.Store.Stacks
import BlockSlots.Store.Tally

/-!
# What stores hold as a whole

The lemmas beside `Table`, `Stacks` and `Tally` speak of a single name. Here the store is taken as a
whole: which values all stacks together hold (`Stacks.toList`, up to the order), and how names are
numbered.

* `Stacks.toList_push_perm`, `Stacks.toList_perm_of_pop?`: a push adds one value, a pop takes that
  value away.
* `Tally.number_add`: adding a name does not renumber the names that are there.
* `Tally.number_injective`: two names that were added have different numbers.
* `Tally.Counts.lt_size_iff`: the numbers of the names have no gaps.
* `Table.ofList_graph`: the table of a list of pairs that gives each name a single value.
* `Table.map_get?_keys`, `Stacks.toList_eq_flatMap`: the values in the order of the names.
-/

set_option autoImplicit false

namespace BlockSlots

namespace Table

variable {α : Type}

theorem mem_entries_of_get? {t : Table α} {key : String} {a : α} (h : t.get? key = some a) :
    (key, a) ∈ t.entries := by
  obtain ⟨l₁, l₂, hl, -⟩ := List.lookup_eq_some_iff.1 h
  rw [hl]
  exact List.mem_append_right _ List.mem_cons_self

theorem mem_keys_update {t : Table α} {key other : String} {f : Option α → α} :
    other ∈ (t.update key f).keys ↔ other ∈ t.keys ∨ other = key := by
  rw [keys_update]
  split
  · next h => exact ⟨.inl, fun ho => ho.elim id fun he => he ▸ h⟩
  · rw [List.mem_append, List.mem_singleton]

/-! ## The place of a name -/

theorem position_eq_length {t : Table α} {key : String} (h : key ∉ t.keys) :
    t.position key = t.keys.length := by
  rw [position, List.findIdx_eq_length]
  intro k hk
  exact beq_eq_false_iff_ne.2 fun he => h (he ▸ hk)

theorem position_lt_length {t : Table α} {key : String} (h : key ∈ t.keys) :
    t.position key < t.keys.length :=
  List.findIdx_lt_length.2 ⟨key, h, beq_self_eq_true key⟩

theorem getElem?_keys_position {t : Table α} {key : String} (h : key ∈ t.keys) :
    t.keys[t.position key]? = some key := by
  have hlt := position_lt_length h
  rw [List.getElem?_eq_getElem hlt]
  have hb := List.findIdx_getElem (p := (key == ·)) (w := hlt)
  exact congrArg some (eq_of_beq hb).symm

theorem position_update {t : Table α} {key other : String} {f : Option α → α}
    (h : other ∈ t.keys ∨ other = key) : (t.update key f).position other = t.position other := by
  unfold position
  rw [keys_update]
  split
  · rfl
  · next hk =>
    rw [List.findIdx_append]
    rcases h with h | rfl
    · exact if_pos (position_lt_length h)
    · have hpos : t.keys.findIdx (other == ·) = t.keys.length := position_eq_length hk
      simp [hpos]

theorem nodup_keys_update {t : Table α} (h : t.keys.Nodup) (key : String) (f : Option α → α) :
    (t.update key f).keys.Nodup := by
  rw [keys_update]
  split
  · exact h
  · next hk =>
    rw [List.nodup_append]
    refine ⟨h, List.pairwise_singleton _ _, ?_⟩
    rintro k hm _ hs rfl
    exact hk (List.mem_singleton.1 hs ▸ hm)

/-- The values of a table are those found under its names. -/
theorem map_get?_keys {t : Table α} (h : t.keys.Nodup) : t.keys.map t.get? = t.values.map some := by
  obtain ⟨entries⟩ := t
  induction entries with
  | nil => rfl
  | cons e entries ih =>
    obtain ⟨k, a⟩ := e
    obtain ⟨hk, hrest⟩ := List.nodup_cons.1 h
    have hself : (⟨(k, a) :: entries⟩ : Table α).get? k = some a := List.lookup_cons_self
    have hother : ∀ key ∈ entries.map (·.1),
        (⟨(k, a) :: entries⟩ : Table α).get? key = (⟨entries⟩ : Table α).get? key := by
      intro key hkey
      have hne : key ≠ k := fun he => hk (he ▸ hkey)
      rw [get?, get?, List.lookup_cons, beq_eq_false_iff_ne.2 hne]
    simp only [keys, values, List.map_cons] at ih ⊢
    rw [hself, List.map_congr_left hother, ih hrest]

theorem position_of_getElem? {t : Table α} (h : t.keys.Nodup) {k : Nat} {key : String}
    (hk : t.keys[k]? = some key) : t.position key = k := by
  have hm : key ∈ t.keys := List.mem_of_getElem? hk
  apply (List.getElem?_inj (position_lt_length hm) h).1
  rw [getElem?_keys_position hm, hk]

/-! ## The order of the names -/

/-- One more mention lists a name at the end, unless it is listed already. -/
theorem eraseDups_concat (names : List String) (name : String) :
    (names ++ [name]).eraseDups = names.eraseDups ++ if name ∈ names then [] else [name] := by
  rw [List.eraseDups_append]
  by_cases h : name ∈ names <;> simp [List.removeAll, List.eraseDups_cons, h]

theorem nodup_eraseDups (names : List String) : names.eraseDups.Nodup := by
  induction names using List.reverseRecOn with
  | nil => exact .nil
  | append_singleton names name ih =>
    rw [eraseDups_concat, List.nodup_append]
    refine ⟨ih, ?_, fun n hn m hm he => ?_⟩
    · split <;> simp
    · split at hm
      · cases hm
      · next hnew =>
        obtain rfl := List.mem_singleton.1 hm
        exact hnew (List.mem_eraseDups.1 (he ▸ hn))

/-- A table lists its names in the order in which they are first entered. -/
theorem keys_update_of_eraseDups {t : Table α} {names : List String} (h : t.keys = names.eraseDups)
    (name : String) (f : Option α → α) :
    (t.update name f).keys = (names ++ [name]).eraseDups := by
  rw [keys_update, h, eraseDups_concat]
  by_cases hm : name ∈ names <;> simp [hm]

/-! ## The table of a list of pairs -/

theorem put_of_not_mem {key : String} {f : Option α → α} {entries : List (String × α)}
    (h : key ∉ entries.map (·.1)) : put key f entries = entries ++ [(key, f none)] := by
  induction entries with
  | nil => rfl
  | cons e entries ih =>
    obtain ⟨k, a⟩ := e
    rw [List.map_cons, List.mem_cons, not_or] at h
    rw [put, if_neg h.1, ih h.2, List.cons_append]

theorem put_of_lookup {key : String} {a : α} {entries : List (String × α)}
    (h : entries.lookup key = some a) : put key (fun _ => a) entries = entries := by
  induction entries with
  | nil => cases h
  | cons e entries ih =>
    obtain ⟨k, b⟩ := e
    by_cases hk : key = k
    · subst hk
      rw [List.lookup_cons_self, Option.some.injEq] at h
      rw [put, if_pos rfl, h]
    · rw [List.lookup_cons, beq_eq_false_iff_ne.2 hk] at h
      rw [put, if_neg hk, ih h]

/-- The pairs of the names that `f` knows, with what `f` gives for them. -/
def graph (f : String → Option α) (names : List String) : List (String × α) :=
  names.filterMap fun name => (f name).map (name, ·)

theorem lookup_graph (f : String → Option α) (names : List String) (key : String) :
    (graph f names).lookup key = if key ∈ names then f key else none := by
  induction names with
  | nil => rfl
  | cons name names ih =>
    unfold graph at ih ⊢
    rw [List.filterMap_cons]
    cases hf : f name with
    | none =>
      by_cases hk : key = name
      · subst hk
        simp [ih, hf]
      · simp [ih, hk]
    | some a =>
      by_cases hk : key = name
      · subst hk
        simp [hf]
      · simp [List.lookup_cons, beq_eq_false_iff_ne.2 hk, ih, hk]

theorem map_fst_graph (f : String → Option α) (names : List String) :
    (graph f names).map (·.1) = names.filter fun name => (f name).isSome := by
  induction names with
  | nil => rfl
  | cons name names ih =>
    unfold graph at ih ⊢
    rw [List.filterMap_cons, List.filter_cons]
    cases hf : f name with
    | none => simpa [hf] using ih
    | some a => simpa [hf] using ih

theorem ofList_concat (pairs : List (String × α)) (p : String × α) :
    ofList (pairs ++ [p]) = (ofList pairs).insert p.1 p.2 := by
  simp [ofList]

/-- A list of pairs that gives each name a single value makes a table of the same pairs, each once,
in the order of the first mention of its name. -/
theorem ofList_graph (f : String → Option α) (names : List String) :
    ofList (graph f names) = ⟨graph f names.eraseDups⟩ := by
  induction names using List.reverseRecOn with
  | nil => rfl
  | append_singleton names name ih =>
    have hgraph : ∀ l₁ l₂ : List String, graph f (l₁ ++ l₂) = graph f l₁ ++ graph f l₂ :=
      fun l₁ l₂ => List.filterMap_append ..
    rw [eraseDups_concat, hgraph, hgraph]
    cases hf : f name with
    | none =>
      have hone : graph f [name] = [] := by simp [graph, hf]
      rw [hone, List.append_nil, ih]
      by_cases h : name ∈ names <;> simp [h, hone]
      simp [graph]
    | some a =>
      have hone : graph f [name] = [(name, a)] := by simp [graph, hf]
      rw [hone, ofList_concat, ih]
      by_cases h : name ∈ names
      · have hl : (graph f names.eraseDups).lookup name = some a := by
          rw [lookup_graph, if_pos (List.mem_eraseDups.2 h), hf]
        simp only [insert, update, put_of_lookup hl, h, if_true]
        simp [graph]
      · have hm : name ∉ (graph f names.eraseDups).map (·.1) := by
          rw [map_fst_graph]
          simp [h]
        simp only [insert, update, put_of_not_mem hm, h, if_false, hone]

theorem get?_ofList_graph (f : String → Option α) (names : List String) (key : String) :
    (ofList (graph f names)).get? key = if key ∈ names then f key else none := by
  rw [ofList_graph, get?, lookup_graph]
  simp only [List.mem_eraseDups]

theorem mem_values_ofList_graph {f : String → Option α} {names : List String} {a : α} :
    a ∈ (ofList (graph f names)).values ↔ ∃ name ∈ names, f name = some a := by
  rw [ofList_graph]
  simp [values, graph]

end Table

namespace Stacks

variable {α : Type}

/-- Every value of a list of stacks, in the order of `toList`. -/
def spread (entries : List (String × List α)) : List α := entries.flatMap fun e => e.2.reverse

theorem spread_put_push_perm (key : String) (a : α) (entries : List (String × List α)) :
    (spread (Table.put key (fun old? => a :: old?.getD []) entries)).Perm
      (a :: spread entries) := by
  induction entries with
  | nil => exact .refl _
  | cons e entries ih =>
    obtain ⟨k, values⟩ := e
    by_cases h : key = k
    · rw [Table.put, if_pos h]
      simp only [spread, List.flatMap_cons, Option.getD_some, List.reverse_cons,
        List.append_assoc]
      exact List.perm_middle
    · rw [Table.put, if_neg h]
      exact (ih.append_left _).trans List.perm_middle

theorem toList_push_perm (s : Stacks α) (key : String) (a : α) :
    (s.push key a).toList.Perm (a :: s.toList) :=
  spread_put_push_perm key a s.table.entries

theorem perm_spread_put_pop {key : String} {a : α} {rest : List α}
    {entries : List (String × List α)} (h : entries.lookup key = some (a :: rest)) :
    (spread entries).Perm (a :: spread (Table.put key (fun _ => rest) entries)) := by
  induction entries with
  | nil => cases h
  | cons e entries ih =>
    obtain ⟨k, values⟩ := e
    by_cases hk : key = k
    · subst hk
      rw [List.lookup_cons_self, Option.some.injEq] at h
      subst h
      rw [Table.put, if_pos rfl]
      simp only [spread, List.flatMap_cons, List.reverse_cons, List.append_assoc]
      exact List.perm_middle
    · rw [List.lookup_cons, beq_eq_false_iff_ne.2 hk] at h
      rw [Table.put, if_neg hk]
      exact ((ih h).append_left _).trans List.perm_middle

theorem toList_perm_of_pop? {s rest : Stacks α} {key : String} {a : α}
    (h : s.pop? key = some (a, rest)) : s.toList.Perm (a :: rest.toList) := by
  unfold pop? at h
  split at h
  · cases h
  · next tail hs =>
    cases h
    refine perm_spread_put_pop ?_
    unfold stack Table.get? at hs
    cases hl : s.table.entries.lookup key with
    | none => rw [hl] at hs; cases hs
    | some values => rw [hl] at hs; exact congrArg some hs

theorem mem_toList_of_pop? {s rest : Stacks α} {key : String} {a : α}
    (h : s.pop? key = some (a, rest)) : a ∈ s.toList :=
  (toList_perm_of_pop? h).mem_iff.2 List.mem_cons_self

theorem mem_toList_of_mem_stack {s : Stacks α} {key : String} {a : α} (h : a ∈ s.stack key) :
    a ∈ s.toList := by
  unfold stack at h
  cases hg : s.table.get? key with
  | none => rw [hg] at h; cases h
  | some values =>
    rw [hg] at h
    exact List.mem_flatMap.2 ⟨_, Table.mem_entries_of_get? hg, List.mem_reverse.2 h⟩

theorem mem_keys_of_pop? {s rest : Stacks α} {key : String} {a : α}
    (h : s.pop? key = some (a, rest)) : key ∈ s.table.keys := by
  have hm : a ∈ s.stack key := by
    rw [stack_of_pop? h]
    exact List.mem_cons_self
  rw [stack] at hm
  cases hg : s.table.get? key with
  | none => rw [hg] at hm; cases hm
  | some values => exact List.mem_map_of_mem (f := Prod.fst) (Table.mem_entries_of_get? hg)

/-- A name keeps its place when something is taken off its stack. -/
theorem keys_of_pop? {s rest : Stacks α} {key : String} {a : α}
    (h : s.pop? key = some (a, rest)) : rest.table.keys = s.table.keys := by
  have hm := mem_keys_of_pop? h
  unfold pop? at h
  split at h
  · cases h
  · cases h
    rw [Table.insert, Table.keys_update, if_pos hm]

theorem exists_pop?_of_stack {s : Stacks α} {key : String} {a : α} {l : List α}
    (h : s.stack key = a :: l) : ∃ rest, s.pop? key = some (a, rest) ∧ rest.stack key = l := by
  cases hp : s.pop? key with
  | none =>
    rw [pop?_eq_none_iff.1 hp] at h
    cases h
  | some p =>
    obtain ⟨b, rest⟩ := p
    rw [stack_of_pop? hp, List.cons.injEq] at h
    exact ⟨rest, by rw [h.1], h.2⟩

/-- The stacks in the order of their names, each from its oldest element on. -/
theorem toList_eq_flatMap {s : Stacks α} (h : s.table.keys.Nodup) :
    s.toList = s.table.keys.flatMap fun key => (s.stack key).reverse := by
  calc s.toList
    _ = (s.table.values.map some).flatMap fun values? => (values?.getD []).reverse := by
      rw [List.flatMap_map, Table.values, List.flatMap_map]
      rfl
    _ = s.table.keys.flatMap fun key => (s.stack key).reverse := by
      rw [← Table.map_get?_keys h, List.flatMap_map]
      rfl

end Stacks

namespace Tally

/-- The names that were added. -/
def names (t : Tally) : List String := t.table.keys

theorem mem_names_add {t : Tally} {key other : String} :
    other ∈ (t.add key).names ↔ other ∈ t.names ∨ other = key :=
  Table.mem_keys_update

theorem number_add {t : Tally} {key other : String} (h : other ∈ t.names ∨ other = key) :
    (t.add key).number other = t.number other :=
  Table.position_update h

theorem number_injective {t : Tally} {key other : String} (hk : key ∈ t.names)
    (ho : other ∈ t.names) (h : t.number key = t.number other) : key = other := by
  have hkey := Table.getElem?_keys_position hk
  have hother := Table.getElem?_keys_position ho
  unfold number at h
  rw [h, hother] at hkey
  exact (Option.some.inj hkey).symm

/-- The names of a tally are distinct, and each was added. -/
structure Counts (t : Tally) : Prop where
  nodup : t.names.Nodup
  pos : ∀ key ∈ t.names, 0 < t.count key

theorem counts_empty : Counts {} where
  nodup := .nil
  pos _ h := absurd h List.not_mem_nil

theorem Counts.add {t : Tally} (h : t.Counts) (key : String) : (t.add key).Counts where
  nodup := Table.nodup_keys_update h.nodup key _
  pos other ho := by
    by_cases he : other = key
    · subst he
      rw [count_add_self]
      omega
    · rw [count_add_of_ne he]
      exact h.pos other ((mem_names_add.1 ho).resolve_right he)

theorem length_names (t : Tally) : t.names.length = t.size := List.length_map ..

/-- The names are numbered from zero. -/
theorem Counts.lt_size_iff {t : Tally} (h : t.Counts) {k : Nat} :
    k < t.size ↔ ∃ key ∈ t.names, t.number key = k := by
  rw [← length_names]
  constructor
  · intro hk
    exact ⟨t.names[k], List.getElem_mem hk,
      Table.position_of_getElem? h.nodup (List.getElem?_eq_getElem hk)⟩
  · rintro ⟨key, hm, rfl⟩
    exact Table.position_lt_length hm

end Tally

end BlockSlots
