import BlockSlots.Proofs.Records
import BlockSlots.Proofs.Resolution

/-!
# The slots listed at the ends of a block

The two lines at the ends of a block get the same list of bindings, one for each slot of the block
(`ListsSlots`): for every slot, or, where unused bindings are hidden, for every slot that a plain
line of the block uses. Either way whatever a plain line of the block is written with is listed.

* `listsSlots_refs`, `listsSlots_used_refs`: what holds the slots at the end of a block lists them.
* `payload_of_closes`: the entries at the ends of a block hold such a list.
-/

set_option autoImplicit false

namespace BlockSlots

open Text

/-- A plain line directly in block `b` mentions a name that stands for a record in slot `i`. -/
def UsesSlot (lines : List String) (ledger : Ledger) (b i : Nat) : Prop :=
  ∃ n r, UsedOn lines b n r ∧ ledger.slotId? r = some i

/-- `refs` lists slots of block `b`: all of them, or those in use if unused ones are hidden. -/
structure ListsSlots (settings : Settings) (lines : List String) (ledger : Ledger) (b : Nat)
    (refs : List Ref) : Prop where
  /-- Every entry was declared directly in the block. -/
  declared : ∀ r ∈ refs, r ∈ records (history (outline lines) b)
  /-- No two entries have the same slot. -/
  distinct : (refs.map ledger.slotId?).Nodup
  /-- The slots are numbered from zero, and each has an entry. -/
  all : settings.hideUnused = false → ∃ k,
    (refs.map ledger.slotId?).Perm ((List.range k).map some) ∧
      ∀ i, i < k ↔ ∃ r ∈ records (history (outline lines) b), ledger.slotId? r = some i
  /-- The slots with an entry are those in use. -/
  used : settings.hideUnused = true → ∀ i,
    some i ∈ refs.map ledger.slotId? ↔ UsesSlot lines ledger b i
  /-- What a plain line of the block is written with has one entry, with its type tag and slot. -/
  covers : ∀ {n r v}, UsedOn lines b n r → ledger.binding? r = some v →
    ∃ s ∈ refs, (∃ w, ledger.binding? s = some w ∧ w.tag = v.tag ∧ w.slot = v.slot) ∧
      ∀ t ∈ refs, ledger.slotId? t = some v.slot.id → t = s
  /-- An entry is shown as used if its slot is in use. -/
  shown : ∀ {mark}, mark = .enter ∨ mark = .leave → ∀ r ∈ refs,
    ∃ v used, ledger.binding? r = some v ∧ ledger.shown? mark r = some { v with used } ∧
      (used = true ↔ UsesSlot lines ledger b v.slot.id)

namespace Draft

variable {lines : List String} {d : Draft} {b : Nat}

/-- What holds a slot is shown as used at the ends of the block if the slot is in use. -/
theorem Tracks.shown?_of_mem_held (ht : Tracks lines d) {h : Holding}
    (hm : h ∈ (blockAt (outline lines) b).held) {mark : Mark}
    (hmark : mark = .enter ∨ mark = .leave) :
    ∃ v used, d.ledger.binding? h.ref = some v ∧ v.tag = h.tag ∧ v.slot = h.slot ∧
      d.ledger.shown? mark h.ref = some { v with used } ∧
        (used = true ↔ UsesSlot lines d.ledger b h.slot.id) := by
  obtain ⟨name, used, hget⟩ := ht.get?_of_mem_held hm
  refine ⟨_, _, by rw [Ledger.binding?, hget]; rfl, rfl, rfl, ?_,
    ht.slotUsed_iff (mem_records_of_mem_held hm) hget⟩
  rcases hmark with rfl | rfl
  · exact congrArg (Option.map _) hget
  · exact congrArg (Option.map _) hget

theorem Tracks.slotId?_of_mem_held (ht : Tracks lines d) {h : Holding}
    (hm : h ∈ (blockAt (outline lines) b).held) :
    d.ledger.slotId? h.ref = some h.slot.id := by
  obtain ⟨name, used, hget⟩ := ht.get?_of_mem_held hm
  rw [Ledger.slotId?, Ledger.binding?, hget]
  rfl

theorem Tracks.map_slotId?_refs (ht : Tracks lines d) :
    (blockAt (outline lines) b).refs.map d.ledger.slotId? =
      ((blockAt (outline lines) b).held.map (·.slot.id)).map some := by
  rw [Block.refs_eq_map_held, List.map_map, List.map_map]
  exact List.map_congr_left fun h hm => ht.slotId?_of_mem_held hm

theorem Tracks.nodup_slotId?_refs (ht : Tracks lines d) :
    ((blockAt (outline lines) b).refs.map d.ledger.slotId?).Nodup := by
  rw [ht.map_slotId?_refs]
  exact (Block.numbered_ofActs _ _).nodup_ids.map fun _ _ => Option.some.inj

/-- Some entry holds the slot of a record that was declared in the block. -/
theorem Tracks.exists_mem_refs (ht : Tracks lines d) {r : Ref} {v : Binding}
    (hr : r ∈ records (history (outline lines) b)) (hv : d.ledger.binding? r = some v) :
    ∃ h ∈ (blockAt (outline lines) b).held, h.tag = v.tag ∧ h.slot = v.slot := by
  obtain ⟨h, hm, name, used, hget⟩ := ht.exists_held_of_mem_records hr
  rw [Ledger.binding?, hget, Option.map_some, Option.some.injEq] at hv
  subst hv
  exact ⟨h, hm, rfl, rfl⟩

/-- Among refs that hold different slots, one that holds the slot of a used record is its only
entry. -/
theorem Tracks.covers (ht : Tracks lines d) {refs : List Ref}
    (hdistinct : (refs.map d.ledger.slotId?).Nodup)
    (hsub : ∀ h ∈ (blockAt (outline lines) b).held, UsesSlot lines d.ledger b h.slot.id →
      h.ref ∈ refs) {n : Nat} {r : Ref} {v : Binding} (hu : UsedOn lines b n r)
    (hv : d.ledger.binding? r = some v) :
    ∃ s ∈ refs, (∃ w, d.ledger.binding? s = some w ∧ w.tag = v.tag ∧ w.slot = v.slot) ∧
      ∀ t ∈ refs, d.ledger.slotId? t = some v.slot.id → t = s := by
  obtain ⟨h, hm, htag, hslot⟩ := ht.exists_mem_refs hu.mem_records hv
  obtain ⟨w, -, hw, hwt, hws, -, -⟩ := ht.shown?_of_mem_held hm (.inl rfl)
  have hid : UsesSlot lines d.ledger b h.slot.id :=
    ⟨n, r, hu, by rw [Ledger.slotId?, hv, hslot]; rfl⟩
  refine ⟨h.ref, hsub h hm hid, ⟨w, hw, hwt.trans htag, hws.trans hslot⟩, fun t htm hts => ?_⟩
  exact List.inj_on_of_nodup_map hdistinct htm (hsub h hm hid)
    (by rw [hts, ht.slotId?_of_mem_held hm, hslot])

/-- The slots of a block have the numbers below some number. -/
theorem Tracks.exists_range (ht : Tracks lines d) : ∃ k,
    ((blockAt (outline lines) b).refs.map d.ledger.slotId?).Perm ((List.range k).map some) ∧
      ∀ i, i < k ↔ ∃ r ∈ records (history (outline lines) b), d.ledger.slotId? r = some i := by
  have hb : (blockAt (outline lines) b).Numbered := Block.numbered_ofActs _ _
  have hperm := hb.ids
  rw [Block.places, List.map_map] at hperm
  refine ⟨(blockAt (outline lines) b).size, ?_, fun i => ?_⟩
  · rw [ht.map_slotId?_refs]
    exact hperm.map some
  · rw [← List.mem_range, ← hperm.mem_iff, List.mem_map]
    refine ⟨fun hx => ?_, fun hx => ?_⟩
    · obtain ⟨h, hm, rfl⟩ := hx
      exact ⟨h.ref, mem_records_of_mem_held hm, ht.slotId?_of_mem_held hm⟩
    · obtain ⟨r, hr, hid⟩ := hx
      obtain ⟨v, hv, rfl⟩ := Option.map_eq_some_iff.1 hid
      obtain ⟨h, hm, -, hslot⟩ := ht.exists_mem_refs hr hv
      exact ⟨h, hm, congrArg Slot.id hslot⟩

/-- What holds the slots of a block lists them, all of it or as much as holds the used ones. -/
theorem Tracks.listsSlots_of_sublist (ht : Tracks lines d) {settings : Settings} {refs : List Ref}
    (hsub : refs.Sublist (blockAt (outline lines) b).refs)
    (hmem : ∀ h ∈ (blockAt (outline lines) b).held, UsesSlot lines d.ledger b h.slot.id →
      h.ref ∈ refs)
    (hall : settings.hideUnused = false → refs = (blockAt (outline lines) b).refs)
    (hused : settings.hideUnused = true → ∀ h ∈ (blockAt (outline lines) b).held, h.ref ∈ refs →
      UsesSlot lines d.ledger b h.slot.id) : ListsSlots settings lines d.ledger b refs := by
  have hheld : ∀ r ∈ refs, ∃ h ∈ (blockAt (outline lines) b).held, h.ref = r := fun r hr =>
    List.mem_map.1 (hsub.subset hr)
  have hdistinct := ht.nodup_slotId?_refs.sublist (hsub.map d.ledger.slotId?)
  refine { declared := fun r hr => ?_, distinct := hdistinct, all := fun hs => ?_,
           used := fun hs i => ?_, covers := ht.covers hdistinct hmem,
           shown := fun hmark r hr => ?_ }
  · obtain ⟨h, hm, rfl⟩ := hheld r hr
    exact mem_records_of_mem_held hm
  · rw [hall hs]
    exact ht.exists_range
  · rw [List.mem_map]
    refine ⟨fun hx => ?_, fun hx => ?_⟩
    · obtain ⟨r, hr, hid⟩ := hx
      obtain ⟨h, hm, rfl⟩ := hheld r hr
      rw [ht.slotId?_of_mem_held hm, Option.some.injEq] at hid
      exact hid ▸ hused hs h hm hr
    · obtain ⟨n, r, hu, hid⟩ := hx
      obtain ⟨v, hv, rfl⟩ := Option.map_eq_some_iff.1 hid
      obtain ⟨h, hm, -, hslot⟩ := ht.exists_mem_refs hu.mem_records hv
      refine ⟨h.ref, hmem h hm ⟨n, r, hu, by rw [hid, hslot]⟩, ?_⟩
      rw [ht.slotId?_of_mem_held hm, hslot]
  · obtain ⟨h, hm, rfl⟩ := hheld r hr
    obtain ⟨v, used, hv, -, hslot, hshown, hiff⟩ := ht.shown?_of_mem_held hm hmark
    exact ⟨v, used, hv, hshown, hslot ▸ hiff⟩

theorem Tracks.listsSlots_refs (ht : Tracks lines d) {settings : Settings}
    (hs : settings.hideUnused = false) :
    ListsSlots settings lines d.ledger b (blockAt (outline lines) b).refs := by
  refine ht.listsSlots_of_sublist (List.Sublist.refl _) ?_ (fun _ => rfl) ?_
  · intro h hm _
    exact List.mem_map_of_mem hm
  · intro hs'
    rw [hs] at hs'
    cases hs'

theorem Tracks.listsSlots_used_refs (ht : Tracks lines d) {settings : Settings}
    (hs : settings.hideUnused = true) {mark : Mark} (hmark : mark = .enter ∨ mark = .leave) :
    ListsSlots settings lines d.ledger b
      ((blockAt (outline lines) b).refs.filter (d.ledger.keeps mark)) := by
  have hany : ∀ h ∈ (blockAt (outline lines) b).held,
      d.ledger.keeps mark h.ref = true ↔ UsesSlot lines d.ledger b h.slot.id := by
    intro h hm
    obtain ⟨v, used, -, -, -, hshown, hused⟩ := ht.shown?_of_mem_held hm hmark
    rw [Ledger.keeps_eq, hshown, ← hused]
    rfl
  refine ht.listsSlots_of_sublist List.filter_sublist ?_ ?_ ?_
  · intro h hm hu
    exact List.mem_filter.2 ⟨List.mem_map_of_mem hm, (hany h hm).2 hu⟩
  · intro hs'
    rw [hs] at hs'
    cases hs'
  · intro _ h hm hr
    exact (hany h hm).1 (List.mem_filter.1 hr).2

/-- The entries at the ends of a closed block. -/
theorem Tracks.entries_of_closes (ht : Tracks lines d) (ho : openers (outline lines) = [])
    {e : Nat} (hc : Closes (outline lines) b e) : ∃ indent indent',
      d.script.get? b = some ⟨indent, .marked .enter (blockAt (outline lines) b).refs⟩ ∧
        d.script.get? e = some ⟨indent', .marked .leave (blockAt (outline lines) b).refs⟩ := by
  have hread : ∀ {k l}, (outline lines)[k]? = some l →
      ∃ text, lines[k]? = some text ∧ Line.read text = l := fun h => by
    rw [outline, List.getElem?_map] at h
    exact Option.map_eq_some_iff.1 h
  have hblock := blockAt_of_closes hc
  obtain ⟨⟨indent', hl⟩, hi⟩ := closes_iff.1 hc
  obtain ⟨indent, hb⟩ := enter_of_mem_openers (List.mem_of_mem_head? hi)
  have hbe := lt_of_innermost? hi
  rw [List.length_take] at hbe
  rw [List.getElem?_take_of_lt (by omega)] at hb
  obtain ⟨text, htext, hr⟩ := hread hb
  obtain ⟨text', htext', hr'⟩ := hread hl
  refine ⟨indent, indent', ?_, ?_⟩
  · rw [ht.entries htext, hr, entryOf, ho, if_neg List.not_mem_nil]
  · rw [ht.entries htext', hr', entryOf, hi, hblock]
    rfl

end Draft

/-- What a plan holds for the ends of a block. -/
theorem Plan.exists_refs_of_closes {settings : Settings} {text : String} {p : Plan}
    (h : Plan.ofText settings text = .ok p) {b e : Nat}
    (hc : Closes (outline (Text.lines text)) b e) : ∃ d indent indent' refs,
      Draft.Tracks (Text.lines text) d ∧ p.ledger = d.ledger ∧
      p.script.get? b = some ⟨indent, .marked .enter refs⟩ ∧
      p.script.get? e = some ⟨indent', .marked .leave refs⟩ ∧
      ListsSlots settings (Text.lines text) d.ledger b refs ∧
      (settings.hideUnused = false → refs = (blockAt (outline (Text.lines text)) b).refs) := by
  obtain ⟨d, ht, ho, rfl⟩ := Plan.exists_tracks h
  obtain ⟨indent, indent', hb, he⟩ := ht.entries_of_closes ho hc
  refine ⟨d, indent, indent', ?_⟩
  cases hs : settings.hideUnused with
  | false => exact ⟨_, ht, rfl, hb, he, ht.listsSlots_refs hs, fun _ => rfl⟩
  | true =>
    refine ⟨_, ht, rfl, ?_, ?_, ht.listsSlots_used_refs hs (.inl rfl), fun hs' => by cases hs'⟩
    · rw [if_pos rfl, Script.get?_keepUsed, hb]
      rfl
    · rw [if_pos rfl, Script.get?_keepUsed, he]
      rfl

/-- **The ends of a block.** The line that opens a block and the one that closes it hold the same
list, which lists the slots of the block. A dialect writes the two lines for what is shown of it. -/
theorem Plan.payload_of_closes {settings : Settings} {text : String} {p : Plan}
    (h : Plan.ofText settings text = .ok p) {b e : Nat}
    (hc : Closes (outline (Text.lines text)) b e) : ∃ indent indent' refs,
      p.script.get? b = some ⟨indent, .marked .enter refs⟩ ∧
      p.script.get? e = some ⟨indent', .marked .leave refs⟩ ∧
      ListsSlots settings (Text.lines text) p.ledger b refs ∧
      ∀ g : Dialect,
        (p.writtenLines g)[b]? =
          some (indent ++ g.enter (refs.filterMap (p.ledger.shown? .enter))) ∧
        (p.writtenLines g)[e]? =
          some (indent' ++ g.leave (refs.filterMap (p.ledger.shown? .leave))) := by
  obtain ⟨d, indent, indent', refs, -, hledger, hb, he, hl, -⟩ := Plan.exists_refs_of_closes h hc
  refine ⟨indent, indent', refs, hb, he, hledger ▸ hl, fun g => ⟨?_, ?_⟩⟩
  · exact Plan.getElem?_writtenLines_marked g hb
  · exact Plan.getElem?_writtenLines_marked g he

theorem Plan.payload_of_closes_sample : ∃ p indent indent' refs,
    Plan.ofText {} Plan.sample = .ok p ∧
    p.script.get? 0 = some ⟨indent, .marked .enter refs⟩ ∧
    p.script.get? 10 = some ⟨indent', .marked .leave refs⟩ ∧
    ListsSlots {} (Text.lines Plan.sample) p.ledger 0 refs ∧
    ∀ g : Dialect,
      (p.writtenLines g)[0]? =
        some (indent ++ g.enter (refs.filterMap (p.ledger.shown? .enter))) ∧
      (p.writtenLines g)[10]? =
        some (indent' ++ g.leave (refs.filterMap (p.ledger.shown? .leave))) := by
  have hi : innermost? ((outline (Text.lines Plan.sample)).take 10) = some 0 := by decide +kernel
  have hc : Closes (outline (Text.lines Plan.sample)) 0 10 :=
    closes_iff.2 ⟨⟨"", by decide +kernel⟩, hi⟩
  have hok := Plan.isOk_sample
  cases hp : Plan.ofText {} Plan.sample with
  | error e => rw [hp] at hok; cases hok
  | ok p =>
    obtain ⟨indent, indent', refs, hb, he, hlists, hwritten⟩ := Plan.payload_of_closes hp hc
    exact ⟨p, indent, indent', refs, rfl, hb, he, hlists, hwritten⟩

end BlockSlots
