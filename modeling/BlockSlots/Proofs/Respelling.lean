import BlockSlots.Proofs.Pieces
import BlockSlots.Proofs.Renaming
import Mathlib.Logic.Embedding.Basic

/-!
# Other spellings

Names and type tags can be spelled in another way, each kind by itself, as long as what was
different stays different (`Respelling`). Tables only compare their keys, so what they hold, and in
which order, does not depend on the spelling, and neither does what a block does.

* `Table.get?_mapKeys`, `update_mapKeys`, `position_mapKeys`: tables with other keys.
* `Block.nextSlot_respell`: a block finds the same slot for a type tag.
* `Block.bind_respell`, `unbind_respell`, `refs_respell`: it goes on as before.
-/

set_option autoImplicit false

namespace BlockSlots

open Text

/-! ## Names -/

/-- A name. -/
abbrev Name := { s : String // isName s.toList = true }

/-- Changes names and leaves every other text alone. -/
def Name.extend (f : Name ↪ Name) (s : String) : String :=
  if h : isName s.toList = true then f ⟨s, h⟩ else s

theorem Name.isName_extend (f : Name ↪ Name) {s : String} (h : isName s.toList = true) :
    isName (extend f s).toList = true := by
  rw [extend, dif_pos h]
  exact (f ⟨s, h⟩).2

theorem Name.extend_empty (f : Name ↪ Name) : Name.extend f "" = "" :=
  dif_neg (by decide)

theorem Name.extend_injective (f : Name ↪ Name) : Function.Injective (Name.extend f) := by
  intro s t h
  by_cases hs : isName s.toList = true
  · by_cases ht : isName t.toList = true
    · rw [extend, extend, dif_pos hs, dif_pos ht, Subtype.val_inj, f.apply_eq_iff_eq] at h
      exact congrArg Subtype.val h
    · -- a name does not become a text that is none
      have hname := isName_extend f hs
      rw [h, extend, dif_neg ht] at hname
      exact absurd hname ht
  · by_cases ht : isName t.toList = true
    · have hname := isName_extend f ht
      rw [← h, extend, dif_neg hs] at hname
      exact absurd hname hs
    · rwa [extend, extend, dif_neg hs, dif_neg ht] at h

/-- Other spellings of names and of type tags. -/
structure Respelling where
  ofName : Name ↪ Name
  ofTag : Name ↪ Name

namespace Respelling

/-- The new spelling of a name. -/
def name (σ : Respelling) : String → String := Name.extend σ.ofName

/-- The new spelling of a type tag. A missing one stays missing. -/
def tag (σ : Respelling) : String → String := Name.extend σ.ofTag

theorem name_injective (σ : Respelling) : Function.Injective σ.name :=
  Name.extend_injective σ.ofName

theorem tag_injective (σ : Respelling) : Function.Injective σ.tag :=
  Name.extend_injective σ.ofTag

theorem tag_empty (σ : Respelling) : σ.tag "" = "" := Name.extend_empty σ.ofTag

end Respelling

/-! ## Tables with other keys -/

section
variable {α : Type} {f : String → String}

/-- The table with every key changed. -/
def Table.mapKeys (f : String → String) (t : Table α) : Table α :=
  ⟨t.entries.map fun e => (f e.1, e.2)⟩

theorem Table.get?_mapKeys (hf : Function.Injective f) (t : Table α) (key : String) :
    (t.mapKeys f).get? (f key) = t.get? key := by
  obtain ⟨entries⟩ := t
  simp only [get?, mapKeys]
  induction entries with
  | nil => rfl
  | cons e entries ih =>
    rw [List.map_cons, List.lookup_cons, List.lookup_cons, hf.beq_eq, ih]

theorem Table.put_mapKeys (hf : Function.Injective f) (key : String) (change : Option α → α)
    (entries : List (String × α)) :
    put (f key) change (entries.map fun e => (f e.1, e.2)) =
      (put key change entries).map fun e => (f e.1, e.2) := by
  induction entries with
  | nil => rfl
  | cons e entries ih =>
    obtain ⟨k, a⟩ := e
    rw [List.map_cons, put, put, ih]
    by_cases h : key = k
    · rw [if_pos h, if_pos (congrArg f h), List.map_cons]
    · rw [if_neg h, if_neg fun he => h (hf he), List.map_cons]

theorem Table.update_mapKeys (hf : Function.Injective f) (t : Table α) (key : String)
    (change : Option α → α) :
    (t.mapKeys f).update (f key) change = (t.update key change).mapKeys f :=
  congrArg Table.mk (put_mapKeys hf key change t.entries)

theorem Table.position_mapKeys (hf : Function.Injective f) (t : Table α) (key : String) :
    (t.mapKeys f).position (f key) = t.position key := by
  have hkeys : (t.mapKeys f).keys = t.keys.map f := by simp [keys, mapKeys]
  rw [position, hkeys, List.findIdx_map, position]
  refine congrArg (List.findIdx · t.keys) (funext fun k => ?_)
  exact hf.beq_eq

theorem Table.values_mapKeys (t : Table α) : (t.mapKeys f).values = t.values := by
  simp [values, mapKeys]

theorem Table.ofList_mapKeys (hf : Function.Injective f) (pairs : List (String × α)) :
    Table.ofList (pairs.map fun p => (f p.1, p.2)) = (Table.ofList pairs).mapKeys f := by
  induction pairs using List.reverseRecOn with
  | nil => rfl
  | append_singleton pairs p ih =>
    rw [List.map_append, List.map_singleton, ofList_concat, ofList_concat, ih]
    exact update_mapKeys hf _ p.1 _

/-- The stacks under other names. -/
def Stacks.mapKeys (f : String → String) (s : Stacks α) : Stacks α := ⟨s.table.mapKeys f⟩

theorem Stacks.stack_mapKeys (hf : Function.Injective f) (s : Stacks α) (key : String) :
    (s.mapKeys f).stack (f key) = s.stack key :=
  congrArg (Option.getD · []) (Table.get?_mapKeys hf s.table key)

theorem Stacks.push_mapKeys (hf : Function.Injective f) (s : Stacks α) (key : String) (a : α) :
    (s.mapKeys f).push (f key) a = (s.push key a).mapKeys f :=
  congrArg Stacks.mk (Table.update_mapKeys hf s.table key _)

theorem Stacks.pop?_mapKeys (hf : Function.Injective f) (s : Stacks α) (key : String) :
    (s.mapKeys f).pop? (f key) = (s.pop? key).map fun p => (p.1, p.2.mapKeys f) := by
  rw [pop?, pop?, stack_mapKeys hf]
  cases s.stack key with
  | nil => rfl
  | cons a rest =>
    exact congrArg (fun t => some (a, Stacks.mk t)) (Table.update_mapKeys hf s.table key _)

theorem Stacks.toList_mapKeys (s : Stacks α) : (s.mapKeys f).toList = s.toList := by
  simp [toList, mapKeys, Table.mapKeys, List.flatMap_map]

/-- The tally of other names. -/
def Tally.mapKeys (f : String → String) (t : Tally) : Tally := ⟨t.table.mapKeys f⟩

theorem Tally.count_mapKeys (hf : Function.Injective f) (t : Tally) (key : String) :
    (t.mapKeys f).count (f key) = t.count key :=
  congrArg (Option.getD · 0) (Table.get?_mapKeys hf t.table key)

theorem Tally.number_mapKeys (hf : Function.Injective f) (t : Tally) (key : String) :
    (t.mapKeys f).number (f key) = t.number key :=
  Table.position_mapKeys hf t.table key

theorem Tally.add_mapKeys (hf : Function.Injective f) (t : Tally) (key : String) :
    (t.mapKeys f).add (f key) = (t.add key).mapKeys f :=
  congrArg Tally.mk (Table.update_mapKeys hf t.table key _)

theorem Tally.total_mapKeys (t : Tally) : (t.mapKeys f).total = t.total := by
  simp [total, mapKeys, Table.mapKeys, List.foldr_map]

end

/-! ## Blocks -/

/-- The binding with its type tag in the new spelling. -/
def Holding.respell (σ : Respelling) (h : Holding) : Holding := { h with tag := σ.tag h.tag }

/-- Stacks of bindings in the new spelling, under names that are changed by `f`. -/
def Stacks.respell (σ : Respelling) (f : String → String) (s : Stacks Holding) : Stacks Holding :=
  (s.map (Holding.respell σ)).mapKeys f

section
variable {f : String → String} (σ : Respelling)

theorem Stacks.stack_respell (hf : Function.Injective f) (s : Stacks Holding) (key : String) :
    (s.respell σ f).stack (f key) = (s.stack key).map (Holding.respell σ) := by
  rw [respell, stack_mapKeys hf, stack_map]

theorem Stacks.push_respell (hf : Function.Injective f) (s : Stacks Holding) (key : String)
    (h : Holding) : (s.respell σ f).push (f key) (h.respell σ) = (s.push key h).respell σ f := by
  rw [respell, push_mapKeys hf, push_map, respell]

theorem Stacks.pop?_respell (hf : Function.Injective f) (s : Stacks Holding) (key : String) :
    (s.respell σ f).pop? (f key) =
      (s.pop? key).map fun p => (p.1.respell σ, p.2.respell σ f) := by
  rw [respell, pop?_mapKeys hf, pop?_map, Option.map_map]
  rfl

theorem Stacks.toList_respell (s : Stacks Holding) :
    (s.respell σ f).toList = s.toList.map (Holding.respell σ) := by
  rw [respell, toList_mapKeys, toList_map]

namespace Block

/-- The block in the new spelling. -/
def respell (b : Block) : Block where
  id := b.id
  live := b.live.respell σ σ.name
  freed := b.freed.respell σ σ.tag
  tags := b.tags.mapKeys σ.tag

/-- **A type tag gets the same slot**, however it is spelled. -/
theorem nextSlot_respell (b : Block) (tag : String) :
    (b.respell σ).nextSlot (σ.tag tag) = b.nextSlot tag := by
  have htop : (b.respell σ).freed.top? (σ.tag tag) =
      (b.freed.top? tag).map (Holding.respell σ) := by
    rw [Stacks.top?, respell, Stacks.stack_respell σ σ.tag_injective, List.head?_map, Stacks.top?]
  have hfresh : (b.respell σ).freshSlot (σ.tag tag) = b.freshSlot tag := by
    simp only [freshSlot, size, respell, Tally.total_mapKeys,
      Tally.number_mapKeys σ.tag_injective, Tally.count_mapKeys σ.tag_injective]
  rw [nextSlot, nextSlot, htop, hfresh]
  cases b.freed.top? tag <;> rfl

theorem hold_respell (b : Block) (ref : Ref) (name tag : String) :
    (b.respell σ).hold ref (σ.name name) (σ.tag tag) = (b.hold ref name tag).respell σ := by
  have hpush := Stacks.push_respell σ σ.name_injective b.live name ⟨ref, tag, b.nextSlot tag⟩
  have hpop := Stacks.pop?_respell σ σ.tag_injective b.freed tag
  unfold hold
  rw [nextSlot_respell]
  dsimp only [respell, Holding.respell] at hpush ⊢
  rw [hpush, hpop]
  cases b.freed.pop? tag with
  | none => simp only [Option.map_none, Tally.add_mapKeys σ.tag_injective]
  | some p => rfl

theorem unbind_respell (b : Block) (name : String) :
    (b.respell σ).unbind (σ.name name) =
      ((b.unbind name).map fun p => (p.1, p.2.respell σ)).mapError fun e => ⟨σ.name e.name⟩ := by
  have hpop := Stacks.pop?_respell σ σ.name_injective b.live name
  unfold unbind
  dsimp only [respell]
  rw [hpop]
  cases b.live.pop? name with
  | none => rfl
  | some p =>
    have hpush := Stacks.push_respell σ σ.tag_injective b.freed p.1.tag p.1
    simp only [Option.map_some, Except.map, Except.mapError]
    rw [← hpush]
    rfl

theorem visible?_respell (b : Block) (name : String) :
    (b.respell σ).visible? (σ.name name) = b.visible? name := by
  rw [visible?, Stacks.top?, respell, Stacks.stack_respell σ σ.name_injective, List.head?_map,
    Option.map_map]
  rfl

theorem refs_respell (b : Block) : (b.respell σ).refs = b.refs := by
  rw [refs, respell, Stacks.toList_respell, Stacks.toList_respell, ← List.map_append, List.map_map]
  rfl

end Block

end

end BlockSlots
