import BlockSlots.Proofs.Acts
import Mathlib.Data.List.Nodup

/-!
# The slots of a block

Every slot of a block is held by one binding: the one that lives in it, or the last one that did.
Acts change who holds a slot, but a slot never goes away and never changes its type tag or its
numbers.

* `Numbered`: the slots are numbered from zero without gaps, in the block and for each type tag, and
  the type tags have different numbers. Every act keeps this (`numbered_ofActs`).
* `exists_bind_of_mem_held`: what holds a slot was declared by the acts, in just that slot.
* `releases_or_mem_live`: a binding lives until a release is matched with it.
* `releases_of_id_eq`: a binding that gets a slot used before has the type tag and all numbers of
  the one before it, which was released in between.
-/

set_option autoImplicit false

namespace BlockSlots

open scoped List

/-- A slot with its type tag. -/
abbrev Place := String × Slot

/-- The slot of a binding with its type tag. -/
def Holding.place (h : Holding) : Place := (h.tag, h.slot)

namespace Block

/-- The bindings that hold the slots of a block, in the order in which `refs` lists them. -/
def held (b : Block) : List Holding := b.live.toList ++ b.freed.toList

/-- The slots of a block with their type tags. -/
def places (b : Block) : List Place := b.held.map (·.place)

theorem refs_eq_map_held (b : Block) : b.refs = b.held.map (·.ref) := rfl

/-! ## One act -/

theorem nextSlot_of_pop? {b : Block} {tag : String} {h : Holding} {freed : Stacks Holding}
    (hp : b.freed.pop? tag = some (h, freed)) : b.nextSlot tag = h.slot := by
  rw [nextSlot, Stacks.top?, Stacks.stack_of_pop? hp]
  rfl

theorem nextSlot_of_none {b : Block} {tag : String} (hp : b.freed.pop? tag = none) :
    b.nextSlot tag = b.freshSlot tag := by
  rw [nextSlot, Stacks.top?, Stacks.pop?_eq_none_iff.1 hp]
  rfl

/-- A binding that takes a free slot replaces the binding that held it. -/
theorem hold_of_pop? {b : Block} {tag : String} {h : Holding} {freed : Stacks Holding}
    (hp : b.freed.pop? tag = some (h, freed)) (ref : Ref) (name : String) :
    b.hold ref name tag = { b with live := b.live.push name ⟨ref, tag, h.slot⟩, freed } := by
  rw [← nextSlot_of_pop? hp]
  unfold hold
  rw [hp]

/-- Without a free slot, a binding gets a new one. -/
theorem hold_of_none {b : Block} {tag : String} (hp : b.freed.pop? tag = none) (ref : Ref)
    (name : String) : b.hold ref name tag =
      { b with live := b.live.push name ⟨ref, tag, b.freshSlot tag⟩, tags := b.tags.add tag } := by
  rw [← nextSlot_of_none hp]
  unfold hold
  rw [hp]

theorem held_unbind_perm (b : Block) (name : String) : (b.act (.unbind name)).held.Perm b.held := by
  cases hp : b.live.pop? name with
  | none => rw [act_unbind_of_none hp]
  | some p =>
    rw [act_unbind_of_pop? hp, held, held]
    calc p.2.toList ++ (b.freed.push p.1.tag p.1).toList
      _ ~ p.2.toList ++ p.1 :: b.freed.toList := (Stacks.toList_push_perm ..).append_left _
      _ ~ p.1 :: (p.2.toList ++ b.freed.toList) := List.perm_middle
      _ ~ b.live.toList ++ b.freed.toList :=
          ((Stacks.toList_perm_of_pop? hp).append_right _).symm

theorem held_hold_of_pop? {b : Block} {tag : String} {h : Holding} {freed : Stacks Holding}
    (hp : b.freed.pop? tag = some (h, freed)) (ref : Ref) (name : String) :
    ∃ others, b.held.Perm (h :: others) ∧
      (b.hold ref name tag).held.Perm (⟨ref, tag, h.slot⟩ :: others) := by
  refine ⟨b.live.toList ++ freed.toList, ?_, ?_⟩
  · exact ((Stacks.toList_perm_of_pop? hp).append_left _).trans List.perm_middle
  · rw [hold_of_pop? hp]
    exact (Stacks.toList_push_perm ..).append_right _

theorem held_hold_of_none {b : Block} {tag : String} (hp : b.freed.pop? tag = none) (ref : Ref)
    (name : String) :
    (b.hold ref name tag).held.Perm (⟨ref, tag, b.freshSlot tag⟩ :: b.held) := by
  rw [hold_of_none hp]
  exact (Stacks.toList_push_perm ..).append_right _

/-! ## Numbering -/

/-- The slots of a block are numbered from zero without gaps, in the block and for each type tag;
a slot has the number of its type tag; and a free slot waits under its own type tag. -/
structure Numbered (b : Block) : Prop where
  tagged : ∀ tag, ∀ h ∈ b.freed.stack tag, h.tag = tag
  ids : (b.places.map (·.2.id)).Perm (List.range b.size)
  kinds : ∀ p ∈ b.places, p.1 ∈ b.tags.names ∧ p.2.kind = b.tags.number p.1
  indices : ∀ tag,
    ((b.places.filter (·.1 = tag)).map (·.2.index)).Perm (List.range (b.tags.count tag))

theorem numbered_empty (id : Nat) : Numbered { id } where
  tagged tag h hm := by simp [Stacks.stack, Table.get?] at hm
  ids := .refl _
  kinds p hp := absurd hp List.not_mem_nil
  indices _ := .refl _

/-- The numbers depend on the slots alone, not on who holds them. -/
theorem Numbered.of_places_perm {b b' : Block} (h : b.Numbered) (htags : b'.tags = b.tags)
    (hplaces : b'.places.Perm b.places)
    (htagged : ∀ tag, ∀ x ∈ b'.freed.stack tag, x.tag = tag) : b'.Numbered where
  tagged := htagged
  ids := by
    rw [size, htags]
    exact (hplaces.map _).trans h.ids
  kinds p hp := by
    rw [htags]
    exact h.kinds p (hplaces.mem_iff.1 hp)
  indices tag := by
    rw [htags]
    exact ((hplaces.filter _).map _).trans (h.indices tag)

theorem Numbered.of_fresh {b b' : Block} (h : b.Numbered) {tag : String}
    (htags : b'.tags = b.tags.add tag)
    (hplaces : b'.places.Perm ((tag, b.freshSlot tag) :: b.places))
    (hfreed : b'.freed = b.freed) : b'.Numbered where
  tagged := by
    rw [hfreed]
    exact h.tagged
  ids := by
    rw [size, htags, Tally.total_add, List.range_succ]
    refine (hplaces.map _).trans ?_
    exact (h.ids.cons _).trans (List.perm_append_singleton _ _).symm
  kinds p hp := by
    rw [htags]
    rcases List.mem_cons.1 (hplaces.mem_iff.1 hp) with rfl | hp
    · exact ⟨Tally.mem_names_add.2 (.inr rfl), (Tally.number_add (.inr rfl)).symm⟩
    · obtain ⟨hn, hk⟩ := h.kinds p hp
      exact ⟨Tally.mem_names_add.2 (.inl hn), by rw [Tally.number_add (.inl hn), hk]⟩
  indices other := by
    rw [htags]
    refine ((hplaces.filter _).map _).trans ?_
    by_cases he : tag = other
    · subst he
      rw [List.filter_cons_of_pos (by simp), List.map_cons, Tally.count_add_self, List.range_succ]
      exact ((h.indices tag).cons _).trans (List.perm_append_singleton _ _).symm
    · rw [List.filter_cons_of_neg (by simpa using he), Tally.count_add_of_ne (Ne.symm he)]
      exact h.indices other

theorem stack_of_pop?_subset {s rest : Stacks Holding} {tag : String} {h : Holding}
    (hp : s.pop? tag = some (h, rest)) (other : String) : rest.stack other ⊆ s.stack other := by
  by_cases he : other = tag
  · subst he
    rw [Stacks.stack_of_pop? hp]
    exact List.subset_cons_self _ _
  · rw [Stacks.stack_of_pop?_of_ne he hp]
    exact List.Subset.refl _

theorem Numbered.tag_of_pop? {b : Block} (hb : b.Numbered) {tag : String} {h : Holding}
    {freed : Stacks Holding} (hp : b.freed.pop? tag = some (h, freed)) : h.tag = tag := by
  apply hb.tagged tag h
  rw [Stacks.stack_of_pop? hp]
  exact List.mem_cons_self

/-- A binding that takes a free slot stands where the one before it stood. -/
theorem Numbered.places_hold_of_pop? {b : Block} (hb : b.Numbered) {tag : String} {h : Holding}
    {freed : Stacks Holding} (hp : b.freed.pop? tag = some (h, freed)) (ref : Ref)
    (name : String) : (b.hold ref name tag).places.Perm b.places := by
  obtain ⟨others, hbefore, hafter⟩ := held_hold_of_pop? hp ref name
  have hplace : (⟨ref, tag, h.slot⟩ : Holding).place = h.place := by
    rw [Holding.place, Holding.place, hb.tag_of_pop? hp]
  refine (hafter.map _).trans ?_
  rw [List.map_cons, hplace]
  exact (hbefore.map _).symm

theorem Numbered.hold {b : Block} (hb : b.Numbered) (ref : Ref) (name tag : String) :
    (b.hold ref name tag).Numbered := by
  cases hp : b.freed.pop? tag with
  | none =>
    have heq := hold_of_none hp ref name
    refine hb.of_fresh ?_ ((held_hold_of_none hp ref name).map _) ?_
    · rw [heq]
    · rw [heq]
  | some p =>
    have heq := hold_of_pop? hp ref name
    refine hb.of_places_perm ?_ (hb.places_hold_of_pop? hp ref name) ?_
    · rw [heq]
    · intro other x hx
      rw [heq] at hx
      exact hb.tagged other x (stack_of_pop?_subset hp other hx)

theorem Numbered.unbind {b : Block} (hb : b.Numbered) (name : String) :
    (b.act (.unbind name)).Numbered := by
  cases hp : b.live.pop? name with
  | none => rwa [act_unbind_of_none hp]
  | some p =>
    have heq := act_unbind_of_pop? hp
    refine hb.of_places_perm ?_ ((held_unbind_perm b name).map _) ?_
    · rw [heq]
    · intro other x hx
      rw [heq] at hx
      by_cases he : other = p.1.tag
      · subst he
        rw [Stacks.stack_push_self, List.mem_cons] at hx
        rcases hx with rfl | hx
        · rfl
        · exact hb.tagged _ x hx
      · rw [Stacks.stack_push_of_ne he] at hx
        exact hb.tagged other x hx

theorem Numbered.act {b : Block} (hb : b.Numbered) (a : Act) : (b.act a).Numbered := by
  cases a with
  | bind ref name tag => exact hb.hold ref name tag
  | unbind name => exact hb.unbind name

theorem numbered_ofActs (id : Nat) (acts : List Act) : (ofActs id acts).Numbered := by
  induction acts using List.reverseRecOn with
  | nil => exact numbered_empty id
  | append_singleton acts a ih =>
    rw [ofActs_concat]
    exact ih.act a

/-! ## What the numbers tell -/

theorem Numbered.nodup_ids {b : Block} (h : b.Numbered) : (b.held.map (·.slot.id)).Nodup := by
  have hids := h.ids.nodup_iff.2 List.nodup_range
  rw [places, List.map_map] at hids
  exact hids

theorem Numbered.eq_of_id_eq {b : Block} (h : b.Numbered) {x y : Holding} (hx : x ∈ b.held)
    (hy : y ∈ b.held) (hid : x.slot.id = y.slot.id) : x = y :=
  List.inj_on_of_nodup_map h.nodup_ids hx hy hid

theorem Numbered.id_lt {b : Block} (h : b.Numbered) {p : Place} (hp : p ∈ b.places) :
    p.2.id < b.size :=
  List.mem_range.1 (h.ids.mem_iff.1 (List.mem_map_of_mem hp))

theorem Numbered.place_eq_of_id_eq {b : Block} (h : b.Numbered) {p q : Place} (hp : p ∈ b.places)
    (hq : q ∈ b.places) (hid : p.2.id = q.2.id) : p = q :=
  List.inj_on_of_nodup_map (h.ids.nodup_iff.2 List.nodup_range) hp hq hid

/-- Slots have the same type number if they have the same type tag. -/
theorem Numbered.kind_eq_iff {b : Block} (h : b.Numbered) {p q : Place} (hp : p ∈ b.places)
    (hq : q ∈ b.places) : p.2.kind = q.2.kind ↔ p.1 = q.1 := by
  obtain ⟨hpn, hpk⟩ := h.kinds p hp
  obtain ⟨hqn, hqk⟩ := h.kinds q hq
  rw [hpk, hqk]
  constructor
  · intro hnumber
    exact Tally.number_injective hpn hqn hnumber
  · intro htag
    rw [htag]

/-- Within a type tag the slots are numbered from zero. -/
theorem Numbered.lt_count_iff {b : Block} (h : b.Numbered) {tag : String} {i : Nat} :
    i < b.tags.count tag ↔ ∃ p ∈ b.places, p.1 = tag ∧ p.2.index = i := by
  rw [← List.mem_range, ← (h.indices tag).mem_iff]
  simp [and_assoc]

/-- Two slots with the same type number and the same number within the type are the same. -/
theorem Numbered.place_eq_of_kind_index_eq {b : Block} (h : b.Numbered) {p q : Place}
    (hp : p ∈ b.places) (hq : q ∈ b.places) (hkind : p.2.kind = q.2.kind)
    (hindex : p.2.index = q.2.index) : p = q := by
  have htag : p.1 = q.1 := (h.kind_eq_iff hp hq).1 hkind
  have hnodup := (h.indices p.1).nodup_iff.2 List.nodup_range
  refine List.inj_on_of_nodup_map hnodup ?_ ?_ hindex
  · exact List.mem_filter.2 ⟨hp, by simp⟩
  · exact List.mem_filter.2 ⟨hq, by simp [htag]⟩

/-! ## Who holds a slot -/

theorem places_subset_act {b : Block} (hb : b.Numbered) (a : Act) :
    b.places ⊆ (b.act a).places := by
  intro p hp
  cases a with
  | bind ref name tag =>
    cases hpop : b.freed.pop? tag with
    | none =>
      exact ((held_hold_of_none hpop ref name).map _).mem_iff.2 (List.mem_cons_of_mem _ hp)
    | some q => exact (hb.places_hold_of_pop? hpop ref name).mem_iff.2 hp
  | unbind name => exact ((held_unbind_perm b name).map _).mem_iff.2 hp

theorem places_subset_ofActs {id : Nat} {acts more : List Act} (h : acts <+: more) :
    (ofActs id acts).places ⊆ (ofActs id more).places := by
  obtain ⟨rest, rfl⟩ := h
  induction rest using List.reverseRecOn with
  | nil => rw [List.append_nil]; exact List.Subset.refl _
  | append_singleton rest a ih =>
    rw [← List.append_assoc, ofActs_concat]
    exact List.Subset.trans ih (places_subset_act (numbered_ofActs id _) a)

theorem mem_live_bind (b : Block) (ref : Ref) (name tag : String) :
    ⟨ref, tag, b.nextSlot tag⟩ ∈ (b.act (.bind ref name tag)).live.toList := by
  rw [act, live_hold]
  exact (Stacks.toList_push_perm ..).mem_iff.2 List.mem_cons_self

theorem place_mem_of_bind (id : Nat) {before acts : List Act} {ref : Ref} {name tag : String}
    (h : before ++ [.bind ref name tag] <+: acts) :
    (tag, (ofActs id before).nextSlot tag) ∈ (ofActs id acts).places := by
  refine places_subset_ofActs h ?_
  rw [ofActs_concat]
  exact List.mem_map_of_mem (List.mem_append_left _ (mem_live_bind ..))

/-- What holds a slot was bound by some act, and got just that slot. -/
theorem exists_bind_of_mem_held {id : Nat} {acts : List Act} {h : Holding}
    (hm : h ∈ (ofActs id acts).held) :
    ∃ before name, before ++ [.bind h.ref name h.tag] <+: acts ∧
      h.slot = (ofActs id before).nextSlot h.tag := by
  induction acts using List.reverseRecOn with
  | nil => exact absurd hm List.not_mem_nil
  | append_singleton acts a ih =>
    -- only the act itself can bring a new holder
    have hold : h ∈ (ofActs id acts).held → ∃ before name,
        before ++ [.bind h.ref name h.tag] <+: acts ++ [a] ∧
          h.slot = (ofActs id before).nextSlot h.tag := fun hm =>
      let ⟨before, name, hb, hs⟩ := ih hm
      ⟨before, name, hb.trans (List.prefix_append _ _), hs⟩
    rw [ofActs_concat] at hm
    cases a with
    | bind ref name tag =>
      cases hp : (ofActs id acts).freed.pop? tag with
      | none =>
        rcases List.mem_cons.1 ((held_hold_of_none hp ref name).mem_iff.1 hm) with rfl | hm
        · exact ⟨acts, name, List.prefix_rfl, (nextSlot_of_none hp).symm⟩
        · exact hold hm
      | some q =>
        obtain ⟨others, hbefore, hafter⟩ := held_hold_of_pop? hp ref name
        rcases List.mem_cons.1 (hafter.mem_iff.1 hm) with rfl | hm
        · exact ⟨acts, name, List.prefix_rfl, (nextSlot_of_pop? hp).symm⟩
        · exact hold (hbefore.mem_iff.2 (List.mem_cons_of_mem _ hm))
    | unbind name => exact hold ((held_unbind_perm _ name).mem_iff.1 hm)

theorem mem_live_act {b : Block} {h : Holding} (hm : h ∈ b.live.toList) (a : Act) :
    h ∈ (b.act a).live.toList ∨ ∃ name, a = .unbind name ∧ (b.bound name).head? = some h.ref := by
  cases a with
  | bind ref name tag =>
    left
    rw [act, live_hold]
    exact (Stacks.toList_push_perm ..).mem_iff.2 (List.mem_cons_of_mem _ hm)
  | unbind name =>
    cases hp : b.live.pop? name with
    | none => left; rwa [act_unbind_of_none hp]
    | some p =>
      rw [act_unbind_of_pop? hp]
      rcases List.mem_cons.1 ((Stacks.toList_perm_of_pop? hp).mem_iff.1 hm) with rfl | hm
      · right
        exact ⟨name, rfl, by rw [bound, Stacks.stack_of_pop? hp]; rfl⟩
      · exact .inl hm

/-- **A binding lives until a release is matched with it.** -/
theorem releases_or_mem_live (id : Nat) {before acts : List Act} {ref : Ref} {name tag : String}
    (h : before ++ [.bind ref name tag] <+: acts) :
    Releases acts ref ∨
      ⟨ref, tag, (ofActs id before).nextSlot tag⟩ ∈ (ofActs id acts).live.toList := by
  obtain ⟨rest, rfl⟩ := h
  induction rest using List.reverseRecOn with
  | nil =>
    right
    rw [List.append_nil, ofActs_concat]
    exact mem_live_bind ..
  | append_singleton rest a ih =>
    rw [← List.append_assoc, ofActs_concat]
    rcases ih with hr | hl
    · exact .inl (hr.mono (List.prefix_append _ _))
    · rcases mem_live_act hl a with hl | ⟨n, rfl, hb⟩
      · exact .inr hl
      · rw [bound_ofActs] at hb
        exact .inl ⟨_, n, List.prefix_rfl, hb⟩

/-- **A slot that is taken again.** The binding before had the same type tag and the same slot, and
was released before. -/
theorem releases_of_id_eq {id : Nat} {before₁ before₂ : List Act} {ref₁ : Ref}
    {name₁ tag₁ tag₂ : String} (h : before₁ ++ [.bind ref₁ name₁ tag₁] <+: before₂)
    (hid : ((ofActs id before₁).nextSlot tag₁).id = ((ofActs id before₂).nextSlot tag₂).id) :
    tag₁ = tag₂ ∧ (ofActs id before₁).nextSlot tag₁ = (ofActs id before₂).nextSlot tag₂ ∧
      Releases before₂ ref₁ := by
  have hb := numbered_ofActs id before₂
  have hplace : (tag₁, (ofActs id before₁).nextSlot tag₁) ∈ (ofActs id before₂).places :=
    place_mem_of_bind id h
  cases hp : (ofActs id before₂).freed.pop? tag₂ with
  | none =>
    -- a new slot has a number that no slot before had
    rw [nextSlot_of_none hp] at hid
    have hlt := hb.id_lt hplace
    exact absurd hid (Nat.ne_of_lt hlt)
  | some p =>
    obtain ⟨hold, freed⟩ := p
    rw [nextSlot_of_pop? hp] at hid ⊢
    have hmem : hold ∈ (ofActs id before₂).freed.toList := Stacks.mem_toList_of_pop? hp
    have htag : hold.tag = tag₂ := hb.tag_of_pop? hp
    have heq := hb.place_eq_of_id_eq hplace
      (List.mem_map_of_mem (List.mem_append_right _ hmem)) hid
    rw [Holding.place, htag, Prod.mk.injEq] at heq
    refine ⟨heq.1, heq.2, ?_⟩
    rcases releases_or_mem_live id h with hr | hl
    · exact hr
    · -- the slot would be held twice
      have hnodup := hb.nodup_ids
      rw [held, List.map_append, List.nodup_append] at hnodup
      exact absurd hid (hnodup.2.2 _ (List.mem_map_of_mem hl) _ (List.mem_map_of_mem hmem))

/-- Two records bound at the same time have different slots. -/
theorem ne_of_standing (id : Nat) {acts : List Act} {name₁ name₂ : String} {r₁ r₂ : Ref}
    (h₁ : r₁ ∈ standing name₁ acts) (h₂ : r₂ ∈ standing name₂ acts) (hne : r₁ ≠ r₂) :
    ∃ x ∈ (ofActs id acts).held, ∃ y ∈ (ofActs id acts).held, x.ref = r₁ ∧ y.ref = r₂ ∧
      x.slot.id ≠ y.slot.id ∧ (x.slot.kind, x.slot.index) ≠ (y.slot.kind, y.slot.index) := by
  rw [← bound_ofActs id] at h₁ h₂
  obtain ⟨x, hx, rfl⟩ := List.mem_map.1 h₁
  obtain ⟨y, hy, rfl⟩ := List.mem_map.1 h₂
  have hb := numbered_ofActs id acts
  have hxm : x ∈ (ofActs id acts).held :=
    List.mem_append_left _ (Stacks.mem_toList_of_mem_stack hx)
  have hym : y ∈ (ofActs id acts).held :=
    List.mem_append_left _ (Stacks.mem_toList_of_mem_stack hy)
  have hxy : x.slot.id ≠ y.slot.id := fun hid =>
    hne (congrArg Holding.ref (hb.eq_of_id_eq hxm hym hid))
  refine ⟨x, hxm, y, hym, rfl, rfl, hxy, fun hki => hxy ?_⟩
  rw [Prod.mk.injEq] at hki
  have hplace := hb.place_eq_of_kind_index_eq (List.mem_map_of_mem hxm) (List.mem_map_of_mem hym)
    hki.1 hki.2
  exact congrArg (·.2.id) hplace

end Block

end BlockSlots
