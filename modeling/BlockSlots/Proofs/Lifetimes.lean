import BlockSlots.Proofs.Numbering
import BlockSlots.Proofs.Releases

/-!
# What lives in a block

What happens to a block comes to acts on it (`Event.acts`), so its state can be told from these.
Every binding is declared with a type tag and lives until it is released: `living` lists the
bindings with a type tag that were declared and not released.

* `Event.run_eq_ofActs`: a block after events is what their acts make of an empty block.
* `Block.stack_freed_bind`, `Block.count_tags_bind`: where a declaration takes its slot from.
* `Block.perm_live`: the live bindings of a block are those declared and not released.
* `Block.length_living`: so they are as many for each type tag.
* `Block.mem_declarations_of_mem_held`: what a block holds was declared with its type tag.
-/

set_option autoImplicit false

namespace BlockSlots

open scoped List

/-! ## Events as acts -/

namespace Event

/-- The acts on the block that events come to, where the ledger has `size` records in front of
them. A declaration, here or in another block, takes the next record. -/
def acts (size : Nat) : List Event → List Act
  | [] => []
  | .bind name tag :: events => .bind size name tag :: acts (size + 1) events
  | .unbind name :: events => .unbind name :: acts size events
  | .noteUse _ :: events => acts size events
  | .elsewhere _ _ _ :: events => acts (size + 1) events

theorem foldl_apply (s : Ledger × Block) (events : List Event) :
    (events.foldl apply s).2 = (acts s.1.size events).foldl Block.act s.2 := by
  induction events generalizing s with
  | nil => rfl
  | cons e events ih =>
    rw [List.foldl_cons, ih]
    cases e with
    | bind name tag => simp [acts, apply, Block.bind, Block.act]
    | unbind name => simp [acts, apply_unbind]
    | noteUse r => simp [acts, apply]
    | elsewhere other name tag => simp [acts, apply, Block.bind]

/-- **A block after events** is what their acts make of an empty block. -/
theorem run_eq_ofActs (id : Nat) (ledger : Ledger) (events : List Event) :
    (run id ledger events).2 = Block.ofActs id (acts ledger.size events) :=
  foldl_apply (ledger, { id }) events

theorem run_append (id : Nat) (ledger : Ledger) (events more : List Event) :
    run id ledger (events ++ more) = more.foldl apply (run id ledger events) :=
  List.foldl_append

theorem acts_append_foldl (s : Ledger × Block) (events more : List Event) :
    acts s.1.size (events ++ more) =
      acts s.1.size events ++ acts (events.foldl apply s).1.size more := by
  induction events generalizing s with
  | nil => rfl
  | cons e events ih =>
    have hrest := ih (apply s e)
    rw [List.foldl_cons, List.cons_append]
    cases e with
    | bind name tag => simpa [acts, apply, Block.bind] using hrest
    | unbind name => simpa [acts, apply_unbind] using hrest
    | noteUse r => simpa [acts, apply] using hrest
    | elsewhere other name tag => simpa [acts, apply, Block.bind] using hrest

theorem acts_append (id : Nat) (ledger : Ledger) (events more : List Event) :
    acts ledger.size (events ++ more) =
      acts ledger.size events ++ acts (run id ledger events).1.size more :=
  acts_append_foldl (ledger, { id }) events more

theorem le_of_mem_records_acts {size : Nat} {events : List Event} {r : Ref}
    (h : r ∈ records (acts size events)) : size ≤ r := by
  induction events generalizing size with
  | nil => cases h
  | cons e events ih =>
    cases e with
    | bind name tag =>
      rcases List.mem_cons.1 h with rfl | h
      · exact Nat.le_refl _
      · exact Nat.le_of_succ_le (ih h)
    | unbind name => exact ih h
    | noteUse s => exact ih h
    | elsewhere other name tag => exact Nat.le_of_succ_le (ih h)

/-- The records of a block stand in the order of its declarations. -/
theorem pairwise_records_acts (size : Nat) (events : List Event) :
    (records (acts size events)).Pairwise (· < ·) := by
  induction events generalizing size with
  | nil => exact .nil
  | cons e events ih =>
    cases e with
    | bind name tag =>
      exact List.pairwise_cons.2 ⟨fun r hr => le_of_mem_records_acts hr, ih (size + 1)⟩
    | unbind name => exact ih size
    | noteUse r => exact ih size
    | elsewhere other name tag => exact ih (size + 1)

theorem nodup_records_acts (size : Nat) (events : List Event) :
    (records (acts size events)).Nodup :=
  (pairwise_records_acts size events).imp Nat.ne_of_lt

end Event

/-! ## Declarations with their type tags -/

/-- The record that an act binds a name in, with the type tag. -/
def Act.declared? : Act → Option (Ref × String)
  | .bind ref _ tag => some (ref, tag)
  | .unbind _ => none

/-- The records that acts bind names in, with their type tags, in order. -/
def declarations (acts : List Act) : List (Ref × String) := acts.filterMap Act.declared?

/-- The records that acts bind names with type tag `tag` in, in order. -/
def declaredWith (tag : String) (acts : List Act) : List Ref :=
  ((declarations acts).filter (·.2 = tag)).map (·.1)

/-- The bindings with type tag `tag` that are declared and not released. -/
def living (tag : String) (acts : List Act) : List Ref :=
  (declaredWith tag acts).filter (· ∉ releases [] acts)

/-- A binding with its type tag, without the slot. -/
def Holding.label (h : Holding) : Ref × String := (h.ref, h.tag)

theorem declarations_append (acts more : List Act) :
    declarations (acts ++ more) = declarations acts ++ declarations more :=
  List.filterMap_append ..

theorem declaredWith_append (tag : String) (acts more : List Act) :
    declaredWith tag (acts ++ more) = declaredWith tag acts ++ declaredWith tag more := by
  rw [declaredWith, declarations_append, List.filter_append, List.map_append]
  rfl

theorem declarations_concat_bind (acts : List Act) (ref : Ref) (name tag : String) :
    declarations (acts ++ [.bind ref name tag]) = declarations acts ++ [(ref, tag)] :=
  declarations_append ..

theorem declarations_concat_unbind (acts : List Act) (name : String) :
    declarations (acts ++ [.unbind name]) = declarations acts :=
  (declarations_append ..).trans (List.append_nil _)

theorem map_fst_declarations (acts : List Act) :
    (declarations acts).map (·.1) = records acts := by
  rw [declarations, records, List.map_filterMap]
  refine List.filterMap_congr fun a _ => ?_
  cases a <;> rfl

theorem nodup_fst_declarations {acts : List Act} (h : (records acts).Nodup) :
    ((declarations acts).map (·.1)).Nodup := by
  rwa [map_fst_declarations]

theorem mem_declarations {acts : List Act} {r : Ref} {tag : String} :
    (r, tag) ∈ declarations acts ↔ ∃ name, .bind r name tag ∈ acts := by
  rw [declarations, List.mem_filterMap]
  refine ⟨fun h => ?_, fun h => ?_⟩
  · obtain ⟨a, ha, hr⟩ := h
    cases a with
    | bind ref name tag => cases hr; exact ⟨name, ha⟩
    | unbind name => cases hr
  · obtain ⟨name, ha⟩ := h
    exact ⟨_, ha, rfl⟩

namespace Block

/-! ## One act -/

theorem stack_live_bind (b : Block) (ref : Ref) (name tag other : String) :
    (b.act (.bind ref name tag)).live.stack other =
      if name = other then ⟨ref, tag, b.nextSlot tag⟩ :: b.live.stack other
      else b.live.stack other := by
  rw [act, live_hold]
  split
  · next h => rw [h, Stacks.stack_push_self]
  · next h => exact Stacks.stack_push_of_ne (Ne.symm h) _ _

/-- A declaration takes the slot that was freed last, if there is one of its type tag. -/
theorem stack_freed_bind (b : Block) (ref : Ref) (name tag other : String) :
    (b.act (.bind ref name tag)).freed.stack other =
      if tag = other then (b.freed.stack other).tail else b.freed.stack other := by
  rw [act]
  cases hp : b.freed.pop? tag with
  | none =>
    rw [hold_of_none hp]
    split
    · next h => rw [← h, Stacks.pop?_eq_none_iff.1 hp, List.tail_nil]
    · rfl
  | some p =>
    rw [hold_of_pop? hp]
    split
    · next h => rw [← h, Stacks.stack_of_pop? hp, List.tail_cons]
    · next h => exact Stacks.stack_of_pop?_of_ne (Ne.symm h) hp

/-- Only where no slot of its type tag is free it makes a new one. -/
theorem count_tags_bind (b : Block) (ref : Ref) (name tag other : String) :
    (b.act (.bind ref name tag)).tags.count other =
      b.tags.count other + if tag = other ∧ b.freed.stack other = [] then 1 else 0 := by
  rw [act]
  cases hp : b.freed.pop? tag with
  | none =>
    have hfree := Stacks.pop?_eq_none_iff.1 hp
    rw [hold_of_none hp]
    by_cases h : tag = other
    · subst h
      simp [hfree]
    · simp [h, Tally.count_add_of_ne (Ne.symm h)]
  | some p =>
    have hfree := Stacks.stack_of_pop? hp
    rw [hold_of_pop? hp]
    by_cases h : tag = other
    · subst h
      simp [hfree]
    · simp [h]

theorem count_tags_unbind (b : Block) (name tag : String) :
    (b.act (.unbind name)).tags.count tag = b.tags.count tag := by
  cases hp : b.live.pop? name with
  | none => rw [act_unbind_of_none hp]
  | some p => rw [act_unbind_of_pop? hp]

/-! ## What is live -/

/-- What a block holds was declared with its type tag. -/
theorem mem_declarations_of_mem_held {id : Nat} {acts : List Act} {h : Holding}
    (hm : h ∈ (ofActs id acts).held) : (h.ref, h.tag) ∈ declarations acts := by
  obtain ⟨before, name, hp, -⟩ := exists_bind_of_mem_held hm
  exact mem_declarations.2 ⟨name, hp.subset List.mem_concat_self⟩

/-- A release takes the latest live binding of its name, if there is one. -/
theorem freed?_unbind (id : Nat) (acts : List Act) (name : String) :
    (Act.unbind name).freed? acts = ((ofActs id acts).live.pop? name).map (·.1.ref) := by
  rw [Act.freed?, ← bound_ofActs id, bound, List.head?_map]
  cases hp : (ofActs id acts).live.pop? name with
  | none => rw [Stacks.pop?_eq_none_iff.1 hp]; rfl
  | some p => rw [Stacks.stack_of_pop? hp]; rfl

/-- **The live bindings of a block** are those declared and not released. -/
theorem perm_live (id : Nat) {acts : List Act} (h : (records acts).Nodup) :
    ((ofActs id acts).live.toList.map Holding.label).Perm
      ((declarations acts).filter (·.1 ∉ releases [] acts)) := by
  induction acts using List.reverseRecOn with
  | nil => exact .refl _
  | append_singleton acts a ih =>
    have hnodup := h
    rw [records_append, List.nodup_append] at h
    have ih := ih h.1
    rw [ofActs_concat, releases_concat, List.nil_append]
    cases a with
    | bind ref name tag =>
      -- the record is new, so it is not released yet
      have hnew : ref ∉ releases [] acts := fun hm =>
        h.2.2 ref (mem_records_of_releases hm) ref (by simp [records, Act.ref?]) rfl
      rw [act, live_hold, declarations_concat_bind, Act.freed?]
      calc ((ofActs id acts).live.push name ⟨ref, tag, _⟩).toList.map Holding.label
        _ ~ (ref, tag) :: (ofActs id acts).live.toList.map Holding.label :=
            (Stacks.toList_push_perm ..).map _
        _ ~ (ref, tag) :: (declarations acts).filter (·.1 ∉ releases [] acts) := ih.cons _
        _ ~ (declarations acts).filter (·.1 ∉ releases [] acts) ++ [(ref, tag)] :=
            (List.perm_append_singleton _ _).symm
        _ ~ _ := by simp [hnew]
    | unbind name =>
      rw [freed?_unbind id, declarations_concat_unbind]
      cases hp : (ofActs id acts).live.pop? name with
      | none =>
        rw [act_unbind_of_none hp]
        simpa using ih
      | some p =>
        obtain ⟨x, live⟩ := p
        rw [act_unbind_of_pop? hp]
        have hold : (x.label :: live.toList.map Holding.label).Perm
            ((declarations acts).filter (·.1 ∉ releases [] acts)) :=
          ((Stacks.toList_perm_of_pop? hp).map Holding.label).symm.trans ih
        -- no other live binding has the record that is released
        have hother : ∀ d ∈ live.toList.map Holding.label, d.1 ≠ x.ref := by
          have hrefs := (hold.map Prod.fst).nodup_iff.2
            ((nodup_fst_declarations h.1).sublist (List.filter_sublist.map _))
          rw [List.map_cons, List.nodup_cons] at hrefs
          intro d hd he
          exact hrefs.1 (List.mem_map.2 ⟨d, hd, he⟩)
        calc live.toList.map Holding.label
          _ = (x.label :: live.toList.map Holding.label).filter (·.1 ≠ x.ref) := by
              rw [List.filter_cons_of_neg (by simp [Holding.label])]
              exact (List.filter_eq_self.2 fun d hd => decide_eq_true (hother d hd)).symm
          _ ~ ((declarations acts).filter (·.1 ∉ releases [] acts)).filter (·.1 ≠ x.ref) :=
              hold.filter _
          _ = _ := by simp [List.filter_filter, and_comm]

/-- The live bindings with a type tag, counted. -/
theorem length_living (id : Nat) {acts : List Act} (h : (records acts).Nodup) (tag : String) :
    (living tag acts).length = (ofActs id acts).live.toList.countP (·.tag = tag) := by
  have hlive : ∀ hs : List Holding, hs.countP (·.tag = tag) =
      (hs.map Holding.label).countP (·.2 = tag) := fun hs => by
    rw [List.countP_map]
    rfl
  rw [hlive, (perm_live id h).countP_eq, living, declaredWith, List.filter_map, List.length_map,
    List.filter_filter, List.countP_filter, List.countP_eq_length_filter]
  exact congrArg List.length (List.filter_congr fun d _ => Bool.and_comm ..)

end Block

end BlockSlots
