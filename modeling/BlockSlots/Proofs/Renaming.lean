import BlockSlots.Proofs.Slots
import BlockSlots.Proofs.Step

/-!
# Renaming records

A block never looks at the records of its bindings, so it does the same whatever the records are
called and whatever its own number is.

* `standing_rename`: what a name stands for is renamed with the acts.
* `ofActs_rename`: so is the block that the acts make, and with it all that is read off the block
  (`nextSlot_rename`, `refs_rename`, `released_rename`).
-/

set_option autoImplicit false

namespace BlockSlots

variable {α β : Type}

/-! ## Tables and stacks -/

/-- The table with every value changed. -/
def Table.map (f : α → β) (t : Table α) : Table β := ⟨t.entries.map fun e => (e.1, f e.2)⟩

theorem Table.lookup_map (f : α → β) (key : String) (entries : List (String × α)) :
    (entries.map fun e => (e.1, f e.2)).lookup key = (entries.lookup key).map f := by
  induction entries with
  | nil => rfl
  | cons e entries ih =>
    rw [List.map_cons, List.lookup_cons, List.lookup_cons, ih]
    cases key == e.1 <;> rfl

theorem Table.get?_map (f : α → β) (t : Table α) (key : String) :
    (t.map f).get? key = (t.get? key).map f :=
  lookup_map f key t.entries

theorem Table.put_map {f : α → β} {change : Option α → α} {change' : Option β → β}
    (h : ∀ a?, change' (a?.map f) = f (change a?)) (key : String) (entries : List (String × α)) :
    put key change' (entries.map fun e => (e.1, f e.2)) =
      (put key change entries).map fun e => (e.1, f e.2) := by
  induction entries with
  | nil => simp [put, ← h]
  | cons e entries ih =>
    obtain ⟨k, a⟩ := e
    rw [List.map_cons, put, put, ih]
    split
    · rw [List.map_cons, ← h]
      rfl
    · rfl

theorem Table.update_map {f : α → β} {change : Option α → α} {change' : Option β → β}
    (h : ∀ a?, change' (a?.map f) = f (change a?)) (t : Table α) (key : String) :
    (t.map f).update key change' = (t.update key change).map f :=
  congrArg Table.mk (put_map h key t.entries)

/-- The stacks with every value changed. -/
def Stacks.map (f : α → β) (s : Stacks α) : Stacks β := ⟨s.table.map (List.map f)⟩

theorem Stacks.stack_map (f : α → β) (s : Stacks α) (key : String) :
    (s.map f).stack key = (s.stack key).map f := by
  rw [stack, map, Table.get?_map, stack]
  cases s.table.get? key <;> rfl

theorem Stacks.push_map (f : α → β) (s : Stacks α) (key : String) (a : α) :
    (s.map f).push key (f a) = (s.push key a).map f := by
  refine congrArg Stacks.mk (Table.update_map ?_ s.table key)
  intro old?
  cases old? <;> rfl

theorem Stacks.pop?_map (f : α → β) (s : Stacks α) (key : String) :
    (s.map f).pop? key = (s.pop? key).map fun p => (f p.1, p.2.map f) := by
  rw [pop?, pop?, stack_map]
  cases s.stack key with
  | nil => rfl
  | cons a rest =>
    refine congrArg (fun t => some (f a, Stacks.mk t)) (Table.update_map ?_ s.table key)
    intro old?
    rfl

theorem Stacks.toList_map (f : α → β) (s : Stacks α) : (s.map f).toList = s.toList.map f := by
  simp [toList, map, Table.map, List.flatMap_map, List.map_flatMap]

/-! ## Acts -/

section
variable (ρ : Ref → Ref)

/-- The act with its record renamed. -/
def Act.rename : Act → Act
  | .bind ref name tag => .bind (ρ ref) name tag
  | .unbind name => .unbind name

theorem standing_rename (name : String) (acts : List Act) :
    standing name (acts.map (Act.rename ρ)) = (standing name acts).map ρ := by
  induction acts using List.reverseRecOn with
  | nil => rfl
  | append_singleton acts a ih =>
    rw [List.map_append, List.map_singleton, standing_concat, standing_concat, ih]
    cases a with
    | bind ref n tag =>
      rw [Act.rename, Act.match, Act.match]
      split <;> rfl
    | unbind n =>
      rw [Act.rename, Act.match, Act.match]
      split
      · exact List.map_tail.symm
      · rfl

theorem map_rename_of_records {ρ : Ref → Ref} {acts : List Act}
    (h : ∀ r ∈ records acts, ρ r = r) : acts.map (Act.rename ρ) = acts := by
  conv_rhs => rw [← List.map_id acts]
  refine List.map_congr_left fun a ha => ?_
  cases a with
  | bind ref name tag => rw [Act.rename, h ref (mem_records.2 ⟨name, tag, ha⟩)]; rfl
  | unbind name => rfl

theorem records_map_rename (acts : List Act) :
    records (acts.map (Act.rename ρ)) = (records acts).map ρ := by
  rw [records, records, List.filterMap_map, List.map_filterMap]
  refine congrArg (List.filterMap · acts) (funext fun a => ?_)
  cases a <;> rfl

/-! ## Blocks -/

namespace Block

/-- The block with its records renamed and another number. -/
def rename (id : Nat) (b : Block) : Block where
  id := id
  live := b.live.map fun h => { h with ref := ρ h.ref }
  freed := b.freed.map fun h => { h with ref := ρ h.ref }
  tags := b.tags

theorem nextSlot_rename (id : Nat) (b : Block) (tag : String) :
    (b.rename ρ id).nextSlot tag = b.nextSlot tag := by
  have htop : (b.rename ρ id).freed.top? tag =
      (b.freed.top? tag).map fun h => { h with ref := ρ h.ref } := by
    rw [Stacks.top?, rename, Stacks.stack_map, List.head?_map]
    rfl
  rw [nextSlot, nextSlot, htop]
  cases b.freed.top? tag <;> rfl

theorem hold_rename (id : Nat) (b : Block) (ref : Ref) (name tag : String) :
    (b.rename ρ id).hold (ρ ref) name tag = (b.hold ref name tag).rename ρ id := by
  have hpush := Stacks.push_map (fun h : Holding => { h with ref := ρ h.ref }) b.live name
    ⟨ref, tag, b.nextSlot tag⟩
  have hpop := Stacks.pop?_map (fun h : Holding => { h with ref := ρ h.ref }) b.freed tag
  unfold hold
  rw [nextSlot_rename]
  dsimp only [rename]
  rw [hpush, hpop]
  cases b.freed.pop? tag <;> rfl

theorem act_rename (id : Nat) (b : Block) (a : Act) :
    (b.rename ρ id).act (a.rename ρ) = (b.act a).rename ρ id := by
  cases a with
  | bind ref name tag => exact hold_rename ρ id b ref name tag
  | unbind name =>
    have hpop := Stacks.pop?_map (fun h : Holding => { h with ref := ρ h.ref }) b.live name
    cases hp : b.live.pop? name with
    | none =>
      rw [hp] at hpop
      rw [Act.rename, act_unbind_of_none hp]
      exact act_unbind_of_none hpop
    | some p =>
      rw [hp] at hpop
      rw [Act.rename, act_unbind_of_pop? hp]
      refine (act_unbind_of_pop? hpop).trans ?_
      rw [rename, rename, ← Stacks.push_map]

/-- **A block is renamed with its acts.** -/
theorem ofActs_rename (id id' : Nat) (acts : List Act) :
    ofActs id' (acts.map (Act.rename ρ)) = (ofActs id acts).rename ρ id' := by
  induction acts using List.reverseRecOn with
  | nil => rfl
  | append_singleton acts a ih =>
    rw [List.map_append, List.map_singleton, ofActs_concat, ofActs_concat, ih, act_rename]

theorem refs_rename (id : Nat) (b : Block) : (b.rename ρ id).refs = b.refs.map ρ := by
  rw [refs, rename, Stacks.toList_map, Stacks.toList_map, refs, ← List.map_append, List.map_map,
    List.map_map]
  rfl

theorem visible?_rename (id : Nat) (b : Block) (name : String) :
    (b.rename ρ id).visible? name = (b.visible? name).map ρ := by
  rw [visible?, Stacks.top?, rename, Stacks.stack_map, List.head?_map, visible?, Stacks.top?,
    Option.map_map, Option.map_map]
  rfl

theorem released_rename (id : Nat) (b : Block) (names : List String) :
    (b.rename ρ id).released names = (b.released names).map ρ := by
  induction names generalizing b with
  | nil => rfl
  | cons name names ih =>
    have hact := act_rename ρ id b (.unbind name)
    rw [Act.rename] at hact
    rw [released, released, visible?_rename, hact, ih, List.map_append]
    cases b.visible? name <;> rfl

end Block

end

end BlockSlots
