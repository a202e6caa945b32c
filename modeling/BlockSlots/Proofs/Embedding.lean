import BlockSlots.Proofs.Mirroring
import BlockSlots.Proofs.Resolution

/-!
# Documents inside documents

A document can stand inside another one, its lines moved and its records renamed, with other lines
between them (`Embeds`). If nothing in the other lines touches its blocks, it comes to the same
there as alone.

* `usedOn_iff`: its blocks use the same records.
* `shown?_eq`: its records show the same bindings.
* `admits_iff`: its lines are accepted or not as they are alone.
* `getElem?_writtenLines`: its lines are written as they are alone.
-/

set_option autoImplicit false

namespace BlockSlots

open Text

/-- The document `lines` stands in `lines'`: line number `k` at `σ k`, record `r` as `ρ r`. -/
structure Embeds (σ ρ : Nat → Nat) (lines lines' : List String) : Prop where
  injective : Function.Injective σ
  ref_injective : Function.Injective ρ
  getElem? : ∀ {k : Nat} {line : String}, lines[k]? = some line → lines'[σ k]? = some line
  /-- A line that opens a block may stand in any block, every other line in its own one. -/
  mirrors : ∀ {k : Nat} {l : Line}, (outline lines)[k]? = some l → (∀ indent, l ≠ .enter indent) →
    Mirrors σ ρ ((outline lines).take k) ((outline lines').take (σ k))
  history_eq : ∀ {b : Nat}, b < lines.length →
    history (outline lines') (σ b) = (history (outline lines) b).map (Act.rename ρ)
  declared_add : ∀ {k : Nat} {l : Line}, (outline lines)[k]? = some l → ∀ i < l.declares,
    ρ (declared ((outline lines).take k) + i) = declared ((outline lines').take (σ k)) + i
  /-- No other line refers to a record of the document. -/
  onto : ∀ {b n : Nat}, b < lines.length → innermost? ((outline lines').take n) = some (σ b) →
    (outline lines')[n]? = some .plain → ∃ k, n = σ k ∧ k < lines.length

namespace Embeds

variable {σ ρ : Nat → Nat} {lines lines' : List String} {b k : Nat} {line : String}

theorem records_eq (he : Embeds σ ρ lines lines') (hb : b < lines.length) :
    records (history (outline lines') (σ b)) =
      (records (history (outline lines) b)).map ρ := by
  rw [he.history_eq hb, records_map_rename]

theorem mirrors_of_plain (he : Embeds σ ρ lines lines') (hk : lines[k]? = some line)
    (hplain : Line.read line = .plain) :
    Mirrors σ ρ ((outline lines).take k) ((outline lines').take (σ k)) :=
  he.mirrors (getElem?_outline hk) fun indent h => by rw [hplain] at h; cases h

theorem lt_length_of_mem_records {r : Ref}
    (h : r ∈ records (history (outline lines) b)) : b < lines.length := by
  obtain ⟨indent, hb⟩ := enter_of_mem_records h
  have hlt := (List.getElem?_eq_some_iff.1 hb).1
  rwa [length_outline] at hlt

/-! ## Uses -/

/-- The uses in a block of the document are those that it has alone. -/
theorem usedOn_iff (he : Embeds σ ρ lines lines') (hb : b < lines.length) {m : Nat} {s : Ref} :
    UsedOn lines' (σ b) m s ↔ ∃ n r, m = σ n ∧ s = ρ r ∧ UsedOn lines b n r := by
  refine ⟨fun h => ?_, fun h => ?_⟩
  · obtain ⟨line, name, hline, hplain, hi, hname, hs⟩ := h
    rw [outline_take] at hi hs
    have hread := getElem?_outline hline
    rw [hplain] at hread
    obtain ⟨n, rfl, hn⟩ := he.onto hb hi hread
    -- the line is line number `n` of the document
    have hline' := he.getElem? (List.getElem?_eq_getElem hn)
    rw [hline, Option.some.injEq] at hline'
    subst hline'
    have hm := he.mirrors_of_plain (List.getElem?_eq_getElem hn) hplain
    rw [hm.innermost, Option.map_eq_some_iff] at hi
    obtain ⟨c, hc, hcb⟩ := hi
    obtain rfl := he.injective hcb
    rw [hm.history c hc, standing_rename, List.head?_map, Option.map_eq_some_iff] at hs
    obtain ⟨r, hr, rfl⟩ := hs
    refine ⟨n, r, rfl, rfl, _, name, List.getElem?_eq_getElem hn, hplain, ?_, hname, ?_⟩
    · rwa [outline_take]
    · rwa [outline_take]
  · obtain ⟨n, r, rfl, rfl, line, name, hline, hplain, hi, hname, hs⟩ := h
    rw [outline_take] at hi hs
    have hm := he.mirrors_of_plain hline hplain
    refine ⟨line, name, he.getElem? hline, hplain, ?_, hname, ?_⟩
    · rw [outline_take, hm.innermost, hi, Option.map_some]
    · rw [outline_take, hm.history b hi, standing_rename, List.head?_map, hs, Option.map_some]

/-! ## Records -/

section
variable {d d' : Draft} {r : Ref} {row : Row}

/-- A record of the document is used if it is alone. -/
theorem exists_usedOn_iff (he : Embeds σ ρ lines lines')
    (hr : r ∈ records (history (outline lines) b)) :
    (∃ c m, UsedOn lines' c m (ρ r)) ↔ ∃ c n, UsedOn lines c n r := by
  have hb := lt_length_of_mem_records hr
  refine ⟨fun h => ?_, fun h => ?_⟩
  · obtain ⟨c, m, hu⟩ := h
    -- the record belongs to one block only
    have hmem : ρ r ∈ records (history (outline lines') (σ b)) := by
      rw [he.records_eq hb]
      exact List.mem_map_of_mem hr
    obtain rfl := eq_of_mem_records hu.mem_records hmem
    obtain ⟨n, s, -, hs, hu'⟩ := (he.usedOn_iff hb).1 hu
    obtain rfl := he.ref_injective hs
    exact ⟨b, n, hu'⟩
  · obtain ⟨c, n, hu⟩ := h
    have hc := lt_length_of_mem_records hu.mem_records
    exact ⟨σ c, σ n, (he.usedOn_iff hc).2 ⟨n, r, rfl, rfl, hu⟩⟩

/-- A record of the document shows the same binding as alone. -/
theorem exists_row (he : Embeds σ ρ lines lines') (ht : Draft.Tracks lines d)
    (ht' : Draft.Tracks lines' d') (hr : r ∈ records (history (outline lines) b))
    (hrow : d.ledger.get? r = some row) :
    ∃ row', d'.ledger.get? (ρ r) = some row' ∧ row'.binding = row.binding := by
  obtain ⟨before, name, tag, used, hp, hget⟩ := ht.get?_of_mem_records hr
  rw [hget, Option.some.injEq] at hrow
  subst hrow
  have hp' : before.map (Act.rename ρ) ++ [.bind (ρ r) name tag] <+:
      history (outline lines') (σ b) := by
    rw [he.history_eq (lt_length_of_mem_records hr)]
    have hmap := hp.map (Act.rename ρ)
    rwa [List.map_append] at hmap
  obtain ⟨used', hget'⟩ := ht'.rows hp'
  refine ⟨_, hget', ?_⟩
  have hslot := Block.nextSlot_rename ρ (entered ((outline lines').take (σ b)))
    (Block.ofActs (entered ((outline lines).take b)) before) tag
  rw [← Block.ofActs_rename] at hslot
  have hused : used' = used := by
    rw [Bool.eq_iff_iff]
    exact (ht'.used hget').trans ((he.exists_usedOn_iff hr).trans (ht.used hget).symm)
  rw [hslot, hused]

theorem slotId?_eq (he : Embeds σ ρ lines lines') (ht : Draft.Tracks lines d)
    (ht' : Draft.Tracks lines' d')
    (hr : r ∈ records (history (outline lines) b)) :
    d'.ledger.slotId? (ρ r) = d.ledger.slotId? r := by
  obtain ⟨_, _, _, _, -, hget⟩ := ht.get?_of_mem_records hr
  obtain ⟨row', hrow', hbinding⟩ := he.exists_row ht ht' hr hget
  rw [Ledger.slotId?, Ledger.binding?, hrow', Ledger.slotId?, Ledger.binding?, hget,
    Option.map_some, Option.map_some, hbinding]
  rfl

/-- A slot of the document counts as used if it does alone. -/
theorem slotUsed_eq (he : Embeds σ ρ lines lines') (ht : Draft.Tracks lines d)
    (ht' : Draft.Tracks lines' d') {row' : Row}
    (hr : r ∈ records (history (outline lines) b))
    (hrow : d.ledger.get? r = some row) (hrow' : d'.ledger.get? (ρ r) = some row')
    (hbinding : row'.binding = row.binding) :
    d'.ledger.slotUsed row' = d.ledger.slotUsed row := by
  have hb := lt_length_of_mem_records hr
  have hr' : ρ r ∈ records (history (outline lines') (σ b)) := by
    rw [he.records_eq hb]
    exact List.mem_map_of_mem hr
  rw [Bool.eq_iff_iff, ht'.slotUsed_iff hr' hrow', ht.slotUsed_iff hr hrow, hbinding]
  refine ⟨fun h => ?_, fun h => ?_⟩
  · obtain ⟨m, s, hu, hid⟩ := h
    obtain ⟨n, t, rfl, rfl, hu'⟩ := (he.usedOn_iff hb).1 hu
    exact ⟨n, t, hu', by rw [← he.slotId?_eq ht ht' hu'.mem_records, hid]⟩
  · obtain ⟨n, s, hu, hid⟩ := h
    refine ⟨σ n, ρ s, (he.usedOn_iff hb).2 ⟨n, s, rfl, rfl, hu⟩, ?_⟩
    rw [he.slotId?_eq ht ht' hu.mem_records, hid]

theorem shown?_eq (he : Embeds σ ρ lines lines') (ht : Draft.Tracks lines d)
    (ht' : Draft.Tracks lines' d') (hr : r < declared (outline lines)) (mark : Mark) :
    d'.ledger.shown? mark (ρ r) = d.ledger.shown? mark r := by
  obtain ⟨b, hb⟩ := ht.owned (ht.size ▸ hr)
  obtain ⟨_, _, _, _, -, hget⟩ := ht.get?_of_mem_records hb
  obtain ⟨row', hrow', hbinding⟩ := he.exists_row ht ht' hb hget
  have hused := he.slotUsed_eq ht ht' hb hget hrow' hbinding
  have hplain : d'.ledger.binding? (ρ r) = d.ledger.binding? r := by
    rw [Ledger.binding?, hrow', Ledger.binding?, hget, Option.map_some, hbinding]
    rfl
  have hslot : d'.ledger.slotBinding? (ρ r) = d.ledger.slotBinding? r := by
    rw [Ledger.slotBinding?, hrow', Ledger.slotBinding?, hget, Option.map_some, hbinding, hused]
    rfl
  cases mark with
  | enter => exact hslot
  | leave => exact hslot
  | declare => exact hplain
  | release => exact hplain

end

/-! ## Lines -/

/-- A line of the document is accepted if it is alone. -/
theorem admits_iff (he : Embeds σ ρ lines lines') {settings : Settings}
    (hk : lines[k]? = some line) :
    Admits settings ((outline lines').take (σ k)) line ↔
      Admits settings ((outline lines).take k) line := by
  cases hl : Line.ofString line with
  | error e =>
    refine ⟨fun h => ?_, fun h => ?_⟩
    · obtain ⟨l, h, -⟩ := h
      rw [hl] at h
      cases h
    · obtain ⟨l, h, -⟩ := h
      rw [hl] at h
      cases h
  | ok l =>
    have hread := getElem?_outline hk
    rw [Line.read_of_ofString hl] at hread
    by_cases hopen : ∃ indent, l = .enter indent
    · obtain ⟨indent, rfl⟩ := hopen
      exact ⟨fun _ => ⟨_, hl, trivial⟩, fun _ => ⟨_, hl, trivial⟩⟩
    · exact (he.mirrors hread fun indent h => hopen ⟨indent, h⟩).admits_iff

theorem range'_eq {ref ref' n : Nat} (h : ∀ i < n, ρ (ref + i) = ref' + i) :
    List.range' ref' n = (List.range' ref n).map ρ := by
  apply List.ext_getElem
  · simp
  · intro i hi _
    rw [List.length_range'] at hi
    simp [h i hi]

/-- A line of the document has the entry that it has alone, but for the records. -/
theorem entryOf_eq (he : Embeds σ ρ lines lines') (ho : openers (outline lines) = [])
    (ho' : openers (outline lines') = []) {l : Line} (hk : (outline lines)[k]? = some l) :
    entryOf (outline lines') (σ k) line l = (entryOf (outline lines) k line l).rename ρ := by
  cases l with
  | enter indent =>
    have hlt := (List.getElem?_eq_some_iff.1 hk).1
    rw [length_outline] at hlt
    rw [entryOf, entryOf, ho, ho', if_neg List.not_mem_nil, if_neg List.not_mem_nil,
      blockAt_of_history (he.history_eq hlt), Block.refs_rename]
    rfl
  | leave indent =>
    have hm := he.mirrors hk (by simp)
    rw [entryOf, entryOf, hm.current]
    cases innermost? ((outline lines).take k) with
    | none => rfl
    | some b =>
      exact congrArg (fun refs => Entry.mk indent (.marked .leave refs)) (Block.refs_rename ..)
  | declare indent items =>
    have hrange : List.range' (declared ((outline lines').take (σ k))) items.length =
        (List.range' (declared ((outline lines).take k)) items.length).map ρ :=
      range'_eq (he.declared_add hk)
    rw [entryOf, entryOf, hrange]
    rfl
  | release indent names =>
    have hm := he.mirrors hk (by simp)
    rw [entryOf, entryOf, hm.current]
    cases innermost? ((outline lines).take k) with
    | none => rfl
    | some b =>
      exact congrArg (fun refs => Entry.mk indent (.marked .release refs))
        (Block.released_rename ..)
  | plain =>
    have hm := he.mirrors hk (by simp)
    rw [entryOf, entryOf, hm.usesAfter]
    rfl

/-- **A document inside another one is written as it is alone.** -/
theorem getElem?_writtenLines (he : Embeds σ ρ lines lines') {settings : Settings} {p p' : Plan}
    (h : Plan.ofLines settings lines = .ok p) (h' : Plan.ofLines settings lines' = .ok p')
    (g : Dialect) (hk : k < lines.length) :
    (p'.writtenLines g)[σ k]? = (p.writtenLines g)[k]? := by
  have hline : lines[k]? = some lines[k] := List.getElem?_eq_getElem hk
  have hread := getElem?_outline hline
  have hentry := Plan.get?_script h hline
  have hentry' := Plan.get?_script h' (he.getElem? hline)
  obtain ⟨d, ht, ho, rfl⟩ := Plan.exists_tracks h
  obtain ⟨d', ht', ho', rfl⟩ := Plan.exists_tracks h'
  have hshown : ∀ mark, ∀ r ∈ (entryOf (outline lines) k lines[k] (Line.read lines[k])).refs,
      d'.ledger.shown? mark (ρ r) = d.ledger.shown? mark r := fun mark r hr =>
    he.shown?_eq ht ht' (lt_declared_of_mem_entryOf hread hr) mark
  rw [he.entryOf_eq ho ho' hread] at hentry'
  rw [Plan.getElem?_writtenLines, Plan.getElem?_writtenLines, hentry, hentry', Option.map_some,
    Option.map_some]
  refine congrArg some ?_
  split
  · rw [Entry.keepUsed_rename hshown]
    exact Entry.written_rename (fun mark r hr => hshown mark r (Entry.refs_keepUsed_subset hr)) g
  · exact Entry.written_rename hshown g

end Embeds

end BlockSlots
