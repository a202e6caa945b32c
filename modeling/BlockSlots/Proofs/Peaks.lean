import BlockSlots.Proofs.Lifetimes
import Mathlib.Data.List.Infix

/-!
# How many slots a block needs

A binding gets a new slot only where each slot of its type tag holds a live binding. So a type tag
has as many slots as it ever had live bindings at the same time (`peak`), which no assignment of
slots can undercut, and a block has as many as its type tags have together.

* `count_tags_eq`: each slot of a type tag holds a live binding or is free.
* `count_tags_eq_peak`: a type tag has as many slots as live bindings at its peak.
* `size_eq_sum`: the slots of a block are those of its type tags.
* `slots_of_run_eq_peak`: all of it, for a block after any events.
-/

set_option autoImplicit false

namespace BlockSlots

/-! ## Peaks -/

/-- The most bindings with type tag `tag` that live at the same time in the course of acts. -/
def peak (tag : String) (acts : List Act) : Nat :=
  (acts.inits.map fun before => (living tag before).length).foldr max 0

theorem foldr_max_concat (ns : List Nat) (n : Nat) :
    (ns ++ [n]).foldr max 0 = max (ns.foldr max 0) n := by
  induction ns with
  | nil => simp
  | cons m ns ih => rw [List.cons_append, List.foldr_cons, ih, List.foldr_cons, Nat.max_assoc]

theorem peak_concat (tag : String) (acts : List Act) (a : Act) :
    peak tag (acts ++ [a]) = max (peak tag acts) (living tag (acts ++ [a])).length := by
  have hinits : (acts ++ [a]).inits = acts.inits ++ [acts ++ [a]] := by
    rw [List.inits_append]
    rfl
  rw [peak, hinits, List.map_append]
  exact foldr_max_concat ..

/-- The type tags that acts bind names with, in the order of their first use. -/
def tagsUsed (acts : List Act) : List String := ((declarations acts).map (·.2)).eraseDups

/-- Names are added in all as often as each of them. -/
theorem Tally.Counts.total_eq {t : Tally} (h : t.Counts) : t.total = (t.names.map t.count).sum := by
  have hcount : t.names.map t.count = (t.table.keys.map t.table.get?).map (·.getD 0) := by
    rw [List.map_map]
    rfl
  rw [hcount, Table.map_get?_keys h.nodup, List.map_map, total, Table.values, List.map_map,
    List.sum_eq_foldr, List.foldr_map]
  rfl

namespace Block

/-! ## One type tag -/

/-- **Each slot of a type tag** holds a live binding or is free. -/
theorem count_tags_eq (id : Nat) (acts : List Act) (tag : String) :
    (ofActs id acts).tags.count tag = (ofActs id acts).live.toList.countP (·.tag = tag) +
      ((ofActs id acts).freed.stack tag).length := by
  induction acts using List.reverseRecOn with
  | nil => rfl
  | append_singleton acts a ih =>
    rw [ofActs_concat]
    cases a with
    | bind ref name t =>
      rw [count_tags_bind, stack_freed_bind, act, live_hold,
        (Stacks.toList_push_perm ..).countP_eq _, List.countP_cons, ih]
      by_cases ht : t = tag
      · cases hfree : (ofActs id acts).freed.stack tag <;> simp [ht]
        omega
      · simp [ht]
    | unbind name =>
      cases hp : (ofActs id acts).live.pop? name with
      | none => rw [act_unbind_of_none hp, ih]
      | some p =>
        rw [act_unbind_of_pop? hp]
        rw [((Stacks.toList_perm_of_pop? hp).countP_eq _), List.countP_cons] at ih
        by_cases ht : p.1.tag = tag
        · subst ht
          simp [ih]
          omega
        · simp [ih, ht, Stacks.stack_push_of_ne (Ne.symm ht)]

/-- A type tag gets a new slot only where no slot of it is free. -/
theorem count_tags_act (b : Block) (a : Act) (tag : String) :
    (b.act a).tags.count tag = b.tags.count tag ∨
      b.tags.count tag ≤ (b.act a).tags.count tag ∧ (b.act a).freed.stack tag = [] := by
  cases a with
  | unbind name => exact .inl (count_tags_unbind b name tag)
  | bind ref name t =>
    rw [count_tags_bind, stack_freed_bind]
    by_cases h : t = tag ∧ b.freed.stack tag = []
    · right
      simp [h.1, h.2]
    · left
      rw [if_neg h, Nat.add_zero]

/-- **A type tag has as many slots** as it had live bindings at its peak. -/
theorem count_tags_eq_peak (id : Nat) {acts : List Act} (h : (records acts).Nodup) (tag : String) :
    (ofActs id acts).tags.count tag = peak tag acts := by
  induction acts using List.reverseRecOn with
  | nil => rfl
  | append_singleton acts a ih =>
    have hbefore : (records acts).Nodup := by
      rw [records_append] at h
      exact (List.nodup_append.1 h).1
    have hslots := count_tags_eq id (acts ++ [a]) tag
    rw [← length_living id h, ofActs_concat] at hslots
    rw [peak_concat, ← ih hbefore, ofActs_concat]
    rcases count_tags_act (ofActs id acts) a tag with hsame | ⟨hle, hfull⟩
    · omega
    · rw [hfull, List.length_nil] at hslots
      omega

example : peak "int" [.bind 0 "a" "int", .unbind "a", .bind 1 "b" "int", .bind 2 "b" "float"] =
    1 := by decide +kernel

/-! ## All type tags -/

theorem counts_ofActs (id : Nat) (acts : List Act) : (ofActs id acts).tags.Counts := by
  induction acts using List.reverseRecOn with
  | nil => exact Tally.counts_empty
  | append_singleton acts a ih =>
    rw [ofActs_concat]
    exact counts_act ih a

/-- A block knows the type tags that names were bound with. -/
theorem names_tags_ofActs (id : Nat) (acts : List Act) :
    (ofActs id acts).tags.names = tagsUsed acts := by
  induction acts using List.reverseRecOn with
  | nil => rfl
  | append_singleton acts a ih =>
    rw [ofActs_concat]
    cases a with
    | unbind name =>
      rw [tagsUsed, declarations_concat_unbind, ← tagsUsed, ← ih]
      cases hp : (ofActs id acts).live.pop? name with
      | none => rw [act_unbind_of_none hp]
      | some p => rw [act_unbind_of_pop? hp]
    | bind ref name tag =>
      rw [tagsUsed, declarations_concat_bind, List.map_append]
      cases hp : (ofActs id acts).freed.pop? tag with
      | none =>
        rw [act, hold_of_none hp]
        exact Table.keys_update_of_eraseDups ih tag _
      | some p =>
        -- the type tag of a free slot was used before
        have hnumbered := numbered_ofActs id acts
        have hfree : p.1 ∈ (ofActs id acts).freed.toList := Stacks.mem_toList_of_pop? hp
        have hdeclared := mem_declarations_of_mem_held (List.mem_append_right _ hfree)
        rw [hnumbered.tag_of_pop? hp] at hdeclared
        have hused : tag ∈ (declarations acts).map (·.2) := List.mem_map_of_mem hdeclared
        rw [act, hold_of_pop? hp, ih, tagsUsed, List.map_singleton, Table.eraseDups_concat,
          if_pos hused, List.append_nil]

/-- **The slots of a block** are those of its type tags. -/
theorem size_eq_sum (id : Nat) {acts : List Act} (h : (records acts).Nodup) :
    (ofActs id acts).size = ((tagsUsed acts).map (peak · acts)).sum := by
  rw [size, (counts_ofActs id acts).total_eq, names_tags_ofActs]
  exact congrArg List.sum (List.map_congr_left fun tag _ => count_tags_eq_peak id h tag)

/-- A declaration makes a new slot if each slot of its type tag holds a live binding. -/
theorem size_hold (b : Block) (ref : Ref) (name tag : String) :
    (b.hold ref name tag).size = b.size + if b.freed.stack tag = [] then 1 else 0 := by
  cases hp : b.freed.pop? tag with
  | none =>
    rw [hold_of_none hp, if_pos (Stacks.pop?_eq_none_iff.1 hp)]
    exact Tally.total_add ..
  | some p =>
    rw [hold_of_pop? hp, if_neg (by simp [Stacks.stack_of_pop? hp])]
    rfl

theorem Recorded.countP_refs {b : Block} {l : Ledger} (h : Recorded l b) (tag : String) :
    b.refs.countP (fun r => (l.binding? r).any (·.tag = tag)) = b.tags.count tag := by
  obtain ⟨vs, hrefs, hplaces⟩ := h.exists_bindings
  have hcount := (h.numbered.indices tag).length_eq
  rw [List.length_map, List.length_range, ← List.countP_eq_length_filter] at hcount
  calc b.refs.countP (fun r => (l.binding? r).any (·.tag = tag))
    _ = (b.refs.map l.binding?).countP (·.any (·.tag = tag)) := by rw [List.countP_map]; rfl
    _ = vs.countP (·.tag = tag) := by rw [hrefs, List.countP_map]; rfl
    _ = b.places.countP (·.1 = tag) := by rw [← hplaces, List.countP_map]; rfl
    _ = b.tags.count tag := hcount

/-- **Slots are reused as well as can be.** After any events a type tag has as many slots as it had
live bindings at its peak, and just so many are listed; a block has as many slots as all its type
tags together. A slot of a type tag is free if not all of them hold live bindings, and then the next
declaration makes no new one. -/
theorem slots_of_run_eq_peak (id : Nat) (ledger : Ledger) (events : List Event) :
    (∀ tag, (Event.run id ledger events).2.tags.count tag =
        peak tag (Event.acts ledger.size events) ∧
      (Event.run id ledger events).2.refs.countP (fun r =>
          ((Event.run id ledger events).1.binding? r).any (·.tag = tag)) =
        peak tag (Event.acts ledger.size events)) ∧
    (Event.run id ledger events).2.size =
      ((tagsUsed (Event.acts ledger.size events)).map
        (peak · (Event.acts ledger.size events))).sum ∧
    ∀ name tag,
      ((Event.run id ledger events).2.freed.stack tag ≠ [] ↔
        (living tag (Event.acts ledger.size events)).length <
          (Event.run id ledger events).2.tags.count tag) ∧
      (Event.run id ledger (events ++ [.bind name tag])).2.size =
        (Event.run id ledger events).2.size +
          if (Event.run id ledger events).2.freed.stack tag = [] then 1 else 0 := by
  have hnodup := Event.nodup_records_acts ledger.size events
  have hrun := Event.run_eq_ofActs id ledger events
  refine ⟨fun tag => ?_, ?_, fun name tag => ⟨?_, ?_⟩⟩
  · have hcount := (recorded_run id ledger events).countP_refs tag
    rw [hcount, hrun, count_tags_eq_peak id hnodup]
    exact ⟨rfl, rfl⟩
  · rw [hrun]
    exact size_eq_sum id hnodup
  · have hslots := count_tags_eq id (Event.acts ledger.size events) tag
    rw [← length_living id hnodup, ← hrun] at hslots
    rw [ne_eq, ← List.length_eq_zero_iff]
    omega
  · rw [Event.run_concat]
    exact size_hold ..

end Block

end BlockSlots
