import BlockSlots.Proofs.Slots
import BlockSlots.Proofs.Tracks

/-!
# Records and the blocks they belong to

Every record of a draft belongs to one block, and shows the slot that it got there. What holds a
slot at the end of a block shows the slot of every record that was ever in it.

* `used_of_shown_iff`, `Ledger.keeps_iff`: what is shown as used, and what is kept where unused
  bindings are hidden.
* `eq_of_block_eq`: records with the same block number belong to the same block.
* `get?_of_mem_held`, `exists_held_of_mem_records`: the records of a block against what holds its
  slots.
* `slotUsed_iff`: a slot counts as used if a plain line directly in its block mentions a name that
  stands for a record in the slot.
-/

set_option autoImplicit false

namespace BlockSlots

/-- The slot number of a record. -/
def Ledger.slotId? (l : Ledger) (r : Ref) : Option Nat := (l.binding? r).map (·.slot.id)

theorem Row.sameSlot_iff {row row' : Row} : row.sameSlot row' = true ↔
    row.block = row'.block ∧ row.binding.slot.id = row'.binding.slot.id := by
  rw [sameSlot, Bool.and_eq_true, beq_iff_eq, beq_iff_eq]

theorem Ledger.slotUsed_iff {l : Ledger} {row : Row} : l.slotUsed row = true ↔
    ∃ s other, l.get? s = some other ∧ other.binding.used = true ∧ other.sameSlot row = true := by
  rw [slotUsed, Array.any_eq_true]
  refine ⟨fun h => ?_, fun h => ?_⟩
  · obtain ⟨s, hs, h⟩ := h
    rw [Bool.and_eq_true] at h
    exact ⟨s, _, Array.getElem?_eq_getElem hs, h.1, h.2⟩
  · obtain ⟨s, other, hs, hu, hsame⟩ := h
    obtain ⟨hlt, rfl⟩ := Array.getElem?_eq_some_iff.1 hs
    exact ⟨s, hlt, by rw [hu, hsame]; rfl⟩

/-- Some binding of the slot that a record stands for is used. -/
def Ledger.SlotUsed (ledger : Ledger) (r : Ref) : Prop :=
  ∃ row s other, ledger.get? r = some row ∧ ledger.get? s = some other ∧
    other.binding.used = true ∧ other.block = row.block ∧
    other.binding.slot.id = row.binding.slot.id

theorem Ledger.any_slotUsed_iff {ledger : Ledger} {r : Ref} :
    (ledger.get? r).any ledger.slotUsed = true ↔ ledger.SlotUsed r := by
  simp only [SlotUsed, Option.any_eq_true, slotUsed_iff, Row.sameSlot_iff]
  constructor
  · rintro ⟨row, hrow, s, other, h⟩
    exact ⟨row, s, other, hrow, h⟩
  · rintro ⟨row, s, other, hrow, h⟩
    exact ⟨row, hrow, s, other, h⟩

/-- **What is kept where unused bindings are hidden.** -/
theorem Ledger.keeps_iff {ledger : Ledger} {mark : Mark} {r : Ref} :
    ledger.keeps mark r = true ↔
      if mark = .enter ∨ mark = .leave then ledger.SlotUsed r
      else ∃ row, ledger.get? r = some row ∧ row.binding.used = true := by
  cases mark with
  | enter | leave => simpa [keeps] using any_slotUsed_iff
  | declare | release => simp [keeps, binding?, Option.any_map, Option.any_eq_true]

/-- **What is shown as used.** At the ends of a block it is a record whose slot is used, elsewhere
one that is used itself. -/
theorem used_of_shown_iff {ledger : Ledger} {mark : Mark} {r : Ref} :
    (ledger.shown? mark r).any (·.used) = true ↔
      if mark = .enter ∨ mark = .leave then ledger.SlotUsed r
      else ∃ row, ledger.get? r = some row ∧ row.binding.used = true := by
  cases mark with
  | enter | leave =>
    simpa [Ledger.shown?, Ledger.slotBinding?, Option.any_map, Function.comp_def] using
      Ledger.any_slotUsed_iff
  | declare | release =>
    simp [Ledger.shown?, Ledger.binding?, Option.any_map, Option.any_eq_true]

/-- So what is kept is what is shown as used. -/
theorem Ledger.keeps_eq (ledger : Ledger) (mark : Mark) (r : Ref) :
    ledger.keeps mark r = (ledger.shown? mark r).any (·.used) :=
  Bool.eq_iff_iff.2 (keeps_iff.trans used_of_shown_iff.symm)

theorem enter_of_mem_records {ls : List Line} {b : Nat} {r : Ref}
    (h : r ∈ records (history ls b)) : ∃ indent, ls[b]? = some (.enter indent) :=
  let ⟨_, _, hm⟩ := mem_records.1 h
  enter_of_mem_history hm

theorem mem_records_of_mem_held {ls : List Line} {b : Nat} {h : Holding}
    (hm : h ∈ (blockAt ls b).held) : h.ref ∈ records (history ls b) :=
  let ⟨_, _, hp, _⟩ := Block.exists_bind_of_mem_held hm
  mem_records_of_isPrefix hp

theorem mem_records_of_mem_refs {ls : List Line} {b : Nat} {r : Ref}
    (hr : r ∈ (blockAt ls b).refs) : r ∈ records (history ls b) := by
  obtain ⟨h, hm, rfl⟩ := List.mem_map.1 hr
  exact mem_records_of_mem_held hm

namespace Draft

variable {lines : List String} {d : Draft}

theorem Tracks.get?_of_mem_records (ht : Tracks lines d) {b : Nat} {r : Ref}
    (h : r ∈ records (history (outline lines) b)) :
    ∃ before name tag used, before ++ [.bind r name tag] <+: history (outline lines) b ∧
      d.ledger.get? r = some
        ⟨⟨name, tag, (Block.ofActs (entered ((outline lines).take b)) before).nextSlot tag, used⟩,
          entered ((outline lines).take b)⟩ := by
  obtain ⟨before, name, tag, hp⟩ := exists_prefix_of_mem_records h
  obtain ⟨used, hr⟩ := ht.rows hp
  exact ⟨before, name, tag, used, hp, hr⟩

theorem Tracks.block_of_mem_records (ht : Tracks lines d) {b : Nat} {r : Ref} {row : Row}
    (h : r ∈ records (history (outline lines) b)) (hr : d.ledger.get? r = some row) :
    row.block = entered ((outline lines).take b) := by
  obtain ⟨before, name, tag, used, -, hget⟩ := ht.get?_of_mem_records h
  rw [hget, Option.some.injEq] at hr
  rw [← hr]

/-- Records with the same block number belong to the same block. -/
theorem Tracks.eq_of_block_eq (ht : Tracks lines d) {b c : Nat} {r s : Ref} {row row' : Row}
    (hr : r ∈ records (history (outline lines) b)) (hs : s ∈ records (history (outline lines) c))
    (hrow : d.ledger.get? r = some row) (hrow' : d.ledger.get? s = some row')
    (h : row.block = row'.block) : b = c := by
  obtain ⟨indent, hb⟩ := enter_of_mem_records hr
  obtain ⟨indent', hc⟩ := enter_of_mem_records hs
  rw [ht.block_of_mem_records hr hrow, ht.block_of_mem_records hs hrow'] at h
  exact entered_take_injective hb hc h

/-- What holds a slot after some of the acts on a block has a record that shows the slot. -/
theorem Tracks.get?_of_mem_held_of_isPrefix (ht : Tracks lines d) {b : Nat} {acts : List Act}
    (hacts : acts <+: history (outline lines) b) {h : Holding}
    (hm : h ∈ (Block.ofActs (entered ((outline lines).take b)) acts).held) :
    ∃ name used, d.ledger.get? h.ref =
      some ⟨⟨name, h.tag, h.slot, used⟩, entered ((outline lines).take b)⟩ := by
  obtain ⟨before, name, hp, hslot⟩ := Block.exists_bind_of_mem_held hm
  obtain ⟨used, hr⟩ := ht.rows (hp.trans hacts)
  exact ⟨name, used, by rw [hr, hslot]⟩

theorem Tracks.get?_of_mem_held (ht : Tracks lines d) {b : Nat} {h : Holding}
    (hm : h ∈ (blockAt (outline lines) b).held) : ∃ name used, d.ledger.get? h.ref =
      some ⟨⟨name, h.tag, h.slot, used⟩, entered ((outline lines).take b)⟩ :=
  ht.get?_of_mem_held_of_isPrefix List.prefix_rfl hm

/-- The slot of a record is still held, with the type tag and all numbers of the record. -/
theorem Tracks.exists_held_of_mem_records (ht : Tracks lines d) {b : Nat} {r : Ref}
    (hr : r ∈ records (history (outline lines) b)) :
    ∃ h ∈ (blockAt (outline lines) b).held, ∃ name used, d.ledger.get? r =
      some ⟨⟨name, h.tag, h.slot, used⟩, entered ((outline lines).take b)⟩ := by
  obtain ⟨before, name, tag, used, hp, hget⟩ := ht.get?_of_mem_records hr
  obtain ⟨h, hm, hplace⟩ := List.mem_map.1 (Block.place_mem_of_bind _ hp)
  rw [Holding.place, Prod.mk.injEq] at hplace
  exact ⟨h, hm, name, used, by rw [hget, hplace.1, hplace.2]⟩

/-- **When a slot counts as used.** -/
theorem Tracks.slotUsed_iff (ht : Tracks lines d) {b : Nat} {r : Ref} {row : Row}
    (hr : r ∈ records (history (outline lines) b)) (hrow : d.ledger.get? r = some row) :
    d.ledger.slotUsed row = true ↔
      ∃ n s, UsedOn lines b n s ∧ d.ledger.slotId? s = some row.binding.slot.id := by
  rw [Ledger.slotUsed_iff]
  refine ⟨fun hx => ?_, fun hx => ?_⟩
  · obtain ⟨s, other, hs, hu, hsame⟩ := hx
    obtain ⟨hblock, hid⟩ := Row.sameSlot_iff.1 hsame
    obtain ⟨c, n, huse⟩ := (ht.used hs).1 hu
    obtain rfl := ht.eq_of_block_eq huse.mem_records hr hs hrow hblock
    refine ⟨n, s, huse, ?_⟩
    rw [Ledger.slotId?, Ledger.binding?, hs, Option.map_some, Option.map_some, hid]
  · obtain ⟨n, s, huse, hid⟩ := hx
    rw [Ledger.slotId?, Ledger.binding?, Option.map_map] at hid
    obtain ⟨other, hs, hid⟩ := Option.map_eq_some_iff.1 hid
    refine ⟨s, other, hs, (ht.used hs).2 ⟨b, n, huse⟩, ?_⟩
    refine Row.sameSlot_iff.2 ⟨?_, hid⟩
    rw [ht.block_of_mem_records huse.mem_records hs, ht.block_of_mem_records hr hrow]

end Draft

end BlockSlots
