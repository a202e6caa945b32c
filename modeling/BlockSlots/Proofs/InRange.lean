import BlockSlots.Proofs.Checked
import BlockSlots.Proofs.Mirroring

/-!
# Every lookup finds something

A draft refers to records of its ledger only, has an entry for each of its lines, and knows for each
open block the entry that opened it, which is still empty (`Draft.InRange`). So a run that checks
its lookups comes to the same result as one that does not, whatever the document.

* `Draft.Tracks.inRange`: this holds after any lines.
* `Draft.Tracks.take?_eq`, `Draft.Tracks.addLines?_eq`: no line breaks the checked run off.
* `Draft.InRange.finish?_eq`, `Plan.written?_eq`: nor does the end of the document, or writing it.
* `Plan.lookups_in_range`: what holds of all runs.
-/

set_option autoImplicit false

namespace BlockSlots

open Text

/-- What the lookups of a draft after `n` lines rest on. -/
structure Draft.InRange (n : Nat) (d : Draft) : Prop where
  /-- What holds a slot in an open block has a record. -/
  held : ∀ o ∈ d.nest.inner, ∀ h ∈ o.block.held, h.ref < d.ledger.size
  /-- What an entry refers to has a record. -/
  listed : ∀ k e, d.script.get? k = some e → ∀ r ∈ e.refs, r < d.ledger.size
  /-- Every line has an entry, -/
  size : d.script.size = n
  /-- and was counted. -/
  number : d.lineCount = n
  /-- The entry that opens an open block is that of the line that does, and is empty. -/
  opened : ∀ o ∈ d.nest.inner, o.entry = o.line ∧ o.line < n ∧
    ∃ indent, d.script.get? o.entry = some ⟨indent, .marked .enter []⟩
  /-- An inner block is opened after the blocks around it. -/
  ordered : d.nest.inner.Pairwise fun o outer => outer.entry < o.entry

/-! ## Drafts -/

namespace Draft

section
variable {settings : Settings} {lines : List String} {d : Draft}

theorem Tracks.exists_opener (h : Tracks lines d) {o : OpenBlock} (ho : o ∈ d.nest.inner) :
    ∃ b ∈ openers (outline lines), o = openBlock (outline lines) b := by
  rw [h.inner, List.mem_map] at ho
  obtain ⟨b, hb, rfl⟩ := ho
  exact ⟨b, hb, rfl⟩

/-- The entry of a block that is still open is that of an empty block. -/
theorem Tracks.get?_of_mem_openers (h : Tracks lines d) {b : Nat}
    (hb : b ∈ openers (outline lines)) :
    ∃ indent, d.script.get? b = some ⟨indent, .marked .enter []⟩ := by
  obtain ⟨indent, hget⟩ := enter_of_mem_openers hb
  rw [outline, List.getElem?_map] at hget
  obtain ⟨text, hk, hread⟩ := Option.map_eq_some_iff.1 hget
  refine ⟨indent, ?_⟩
  rw [h.entries hk, hread, entryOf, if_pos hb]

/-- **The lookups of a draft are in range.** -/
theorem Tracks.inRange (h : Tracks lines d) : InRange lines.length d := by
  refine { held := fun o ho x hx => ?_, listed := fun k e he r hr => ?_, size := h.length,
           number := h.number, opened := fun o ho => ?_, ordered := ?_ }
  · obtain ⟨b, -, rfl⟩ := h.exists_opener ho
    rw [h.size]
    exact lt_declared_of_mem_records (mem_records_of_mem_held hx)
  · obtain ⟨text, hk, rfl⟩ := h.exists_entryOf he
    rw [h.size]
    exact lt_declared_of_mem_entryOf (getElem?_outline hk) hr
  · obtain ⟨b, hb, rfl⟩ := h.exists_opener ho
    have hlt := lt_of_mem_openers hb
    rw [length_outline] at hlt
    exact ⟨rfl, hlt, h.get?_of_mem_openers hb⟩
  · rw [h.inner, List.pairwise_map]
    exact pairwise_openers (outline lines)

/-- The entry of an open block can be filled in. -/
theorem InRange.fill?_eq {n : Nat} (h : InRange n d) {o : OpenBlock} (ho : o ∈ d.nest.inner)
    (refs : List Ref) : d.script.fill? o.entry refs = some (d.script.fill o.entry refs) := by
  obtain ⟨-, -, indent, hentry⟩ := h.opened o ho
  exact Script.fill?_of_enter hentry refs

/-- Then the entry holds the bindings, and every other entry is as it was. -/
theorem InRange.get?_fill {n : Nat} (h : InRange n d) {o : OpenBlock} (ho : o ∈ d.nest.inner)
    (refs : List Ref) :
    (∃ indent, (d.script.fill o.entry refs).get? o.entry = some ⟨indent, .marked .enter refs⟩) ∧
      ∀ k, k ≠ o.entry → (d.script.fill o.entry refs).get? k = d.script.get? k := by
  obtain ⟨-, -, indent, hentry⟩ := h.opened o ho
  refine ⟨⟨indent, ?_⟩, fun k hk => ?_⟩
  · rw [Script.get?_fill, if_pos rfl, hentry]
    rfl
  · rw [Script.get?_fill, if_neg (Ne.symm hk)]

/-! ## Lines -/

theorem Tracks.backed (h : Tracks lines d) {o : OpenBlock} (ho : o ∈ d.nest.inner) :
    o.block.Backed d.ledger := by
  obtain ⟨b, -, rfl⟩ := h.exists_opener ho
  refine { numbered := Block.numbered_ofActs _ _, held := fun x hx => ?_ }
  rw [openBlock, blockAt, Block.id_ofActs]
  exact h.get?_of_mem_held hx

theorem Tracks.backed_of_current? (h : Tracks lines d) {block : Block}
    (hc : d.nest.current? = some block) : block.Backed d.ledger := by
  obtain ⟨o, outer, hi, rfl⟩ := current?_eq_some hc
  exact h.backed (hi ▸ List.mem_cons_self)

theorem Tracks.mem_uses_lt (h : Tracks lines d) {line : String} {r : Ref}
    (hr : r ∈ (Draft.usesIn d.nest line).values) : r < d.ledger.size := by
  rw [h.usesIn] at hr
  obtain ⟨name, -, hres⟩ := mem_values_usesAfter.1 hr
  obtain ⟨b, -, hs⟩ := resolve?_eq_some_iff.1 hres
  rw [h.size]
  exact lt_declared_of_mem_records (mem_records_of_standing (List.mem_of_mem_head? hs))

theorem Tracks.leave?_eq (h : Tracks lines d) (indent : String) :
    d.leave? indent = some (d.leave indent) := by
  rw [leave?, leave, Nest.pop?]
  cases hi : d.nest.inner with
  | nil => rfl
  | cons o outer =>
    dsimp only
    rw [h.inRange.fill?_eq (hi ▸ List.mem_cons_self), Option.map_some]

theorem Tracks.declare?_eq (h : Tracks lines d) (indent : String) (items : List ListItem) :
    d.declare? settings indent items = some (d.declare settings indent items) := by
  rw [declare?, declare]
  cases hc : d.nest.current? with
  | none => rfl
  | some block =>
    dsimp only
    rw [(h.backed_of_current? hc).bindAll?_eq]
    cases undeclarable? settings items <;> rfl

theorem Tracks.release?_eq (h : Tracks lines d) (indent : String) (names : List String) :
    d.release? indent names = some (d.release indent names) := by
  rw [release?, release]
  cases hc : d.nest.current? with
  | none => rfl
  | some block =>
    dsimp only
    rw [(h.backed_of_current? hc).unbindAll?_eq]
    cases unbindAll block names <;> rfl

theorem Tracks.plain?_eq (h : Tracks lines d) (line : String) :
    d.plain? line = some (d.plain line) := by
  rw [plain?, Ledger.foldlM_noteUse? fun r hr => h.mem_uses_lt hr]
  rfl

/-- **No line breaks the checked run off.** -/
theorem Tracks.take?_eq (h : Tracks lines d) (line : String) :
    d.take? settings line = some (d.take settings line) := by
  rw [take?, take]
  cases Line.ofString line with
  | error e => rfl
  | ok l =>
    cases l with
    | enter indent => rfl
    | leave indent => exact h.leave?_eq indent
    | declare indent items => exact h.declare?_eq indent items
    | release indent names => exact h.release?_eq indent names
    | plain => exact congrArg (Option.map Except.ok) (h.plain?_eq line)

theorem Tracks.addLines?_eq (h : Tracks lines d) (more : List String) :
    addLines? settings d more = some (more.foldlM (addLine settings) d) := by
  -- on the lines to come: the draft tracks those before them
  induction more generalizing lines d with
  | nil => rfl
  | cons line more ih =>
    rw [addLines?, h.take?_eq, List.foldlM_cons, addLine]
    cases ht : d.take settings line with
    | error cause => rfl
    | ok d' =>
      obtain ⟨l, hl, hs⟩ := take_eq_ok_iff.1 ht
      exact ih (h.step hs hl)

end

end Draft

/-! ## The end of a document -/

theorem Entry.keepUsed?_eq {ledger : Ledger} {e : Entry} (h : ∀ r ∈ e.refs, r < ledger.size) :
    e.keepUsed? ledger = some (e.keepUsed ledger) := by
  obtain ⟨indent, content⟩ := e
  cases content with
  | plain line uses => rfl
  | marked mark refs =>
    have hall : refs.all (· < ledger.size) = true :=
      List.all_eq_true.2 fun r hr => decide_eq_true (h r hr)
    rw [keepUsed?]
    exact if_pos hall

theorem Script.exists_get?_of_mem {s : Script} {e : Entry} (he : e ∈ s.entries.toList) :
    ∃ k, s.get? k = some e := by
  obtain ⟨k, hk⟩ := List.mem_iff_getElem?.1 he
  rw [Array.getElem?_toList] at hk
  exact ⟨k, hk⟩

theorem Script.keepUsed?_eq {s : Script} {ledger : Ledger}
    (h : ∀ k e, s.get? k = some e → ∀ r ∈ e.refs, r < ledger.size) :
    s.keepUsed? ledger = some (s.keepUsed ledger) := by
  have hall : ∀ e ∈ s.entries.toList, e.keepUsed? ledger = some (e.keepUsed ledger) := by
    intro e he
    obtain ⟨k, hk⟩ := exists_get?_of_mem he
    exact Entry.keepUsed?_eq (h k e hk)
  rw [keepUsed?, mapM_eq_some_map hall, keepUsed, Option.map_some, ← Array.toList_map,
    Array.toArray_toList]

theorem Draft.InRange.finish?_eq {settings : Settings} {lines : List String} {d : Draft}
    (h : d.InRange lines.length) : d.finish? settings lines = some (d.finish settings lines) := by
  rw [finish?, finish]
  cases ho : d.nest.outermost? with
  | some o =>
    obtain ⟨-, hlt, -⟩ := h.opened o (List.mem_of_getLast? ho)
    dsimp only
    rw [List.getElem?_eq_getElem hlt]
    rfl
  | none =>
    dsimp only
    rw [Script.keepUsed?_eq h.listed]
    split <;> rfl

/-! ## What is written -/

theorem Entry.written?_eq {ledger : Ledger} {e : Entry} (h : ∀ r ∈ e.refs, r < ledger.size)
    (g : Dialect) : e.written? g ledger = some (e.written g ledger) := by
  obtain ⟨indent, content⟩ := e
  cases content with
  | marked mark refs =>
    rw [written?, written]
    dsimp only
    have hshown : ∀ r ∈ refs, ∃ b, ledger.shown? mark r = some b :=
      fun r hr => Ledger.exists_shown?_of_lt (h r hr) mark
    rw [mapM_eq_some_filterMap hshown]
    rfl
  | plain line uses =>
    have hpiece : ∀ p ∈ pieces line.toList, p.written? g ledger uses =
        some (p.replaced fun name => ((uses.get? name).bind ledger.binding?).map g.use) := by
      intro p _
      cases p with
      | other c => rfl
      | name text =>
        rw [Piece.written?, Piece.replaced]
        cases hu : uses.get? text with
        | none => rfl
        | some r =>
          have hr : r ∈ uses.values := List.mem_map_of_mem (Table.mem_entries_of_get? hu)
          obtain ⟨b, hb⟩ : ∃ b, ledger.binding? r = some b :=
            Ledger.exists_shown?_of_lt (h r hr) .declare
          dsimp only
          rw [Option.bind_some, hb]
          rfl
    rw [written?, written]
    dsimp only
    rw [mapM_eq_some_map hpiece, substitute, List.flatMap]
    rfl

theorem Plan.written?_eq {p : Plan}
    (h : ∀ k e, p.script.get? k = some e → ∀ r ∈ e.refs, r < p.ledger.size) (g : Dialect)
    (separator : String) : p.written? g separator = some (p.written g separator) := by
  have hall : ∀ e ∈ p.script.entries.toList,
      e.written? g p.ledger = some (e.written g p.ledger) := by
    intro e he
    obtain ⟨k, hk⟩ := Script.exists_get?_of_mem he
    exact Entry.written?_eq (h k e hk) g
  rw [written?, mapM_eq_some_map hall]
  rfl

/-! ## Documents -/

namespace Plan

variable {settings : Settings} {text : String}

theorem ofText?_eq (settings : Settings) (text : String) :
    ofText? settings text = some (ofText settings text) := by
  rw [ofText?, Draft.tracks_nil.addLines?_eq, ofText, ofLines_eq_bind, Draft.ofLines]
  cases hd : (lines text).foldlM (Draft.addLine settings) {} with
  | error fault => rfl
  | ok d => exact (Draft.tracks_ofLines hd).inRange.finish?_eq

/-- The entries of an accepted document refer to records that are there. -/
theorem refs_lt_size {p : Plan} (h : ofText settings text = .ok p) {k : Nat} {e : Entry}
    (he : p.script.get? k = some e) {r : Ref} (hr : r ∈ e.refs) : r < p.ledger.size := by
  obtain ⟨d, ht, -, rfl⟩ := exists_tracks h
  dsimp only at he ⊢
  split at he
  · rw [Script.get?_keepUsed] at he
    obtain ⟨full, hfull, rfl⟩ := Option.map_eq_some_iff.1 he
    exact ht.inRange.listed k full hfull r (Entry.refs_keepUsed_subset hr)
  · exact ht.inRange.listed k e he r hr

/-- **Every lookup finds something.** After any lines of a document its draft is in range: what
blocks and entries refer to has a record, each line has an entry, and each open block knows the
empty entry of the line that opened it. A line that closes a block fills in the entry of the line
that opened this block with the slots of the block, and no other entry. The checked run comes to
the plan or the fault that the run comes to, and what is written with every lookup checked is what
is written without. -/
theorem lookups_in_range (settings : Settings) (text : String) :
    (∀ before d, before <+: lines text → Draft.ofLines settings before = .ok d →
      d.InRange before.length ∧
      ∀ line indent o outer, before ++ [line] <+: lines text →
        Line.ofString line = .ok (.leave indent) → d.nest.inner = o :: outer →
        Closes (outline (lines text)) o.entry before.length ∧
        d.script.fill? o.entry o.block.refs = some (d.script.fill o.entry o.block.refs) ∧
        (∃ indent', (d.script.fill o.entry o.block.refs).get? o.entry =
          some ⟨indent', .marked .enter o.block.refs⟩) ∧
        ∀ k, k ≠ o.entry →
          (d.script.fill o.entry o.block.refs).get? k = d.script.get? k) ∧
    ofText? settings text = some (ofText settings text) ∧
    ∀ p, ofText settings text = .ok p →
      ∀ g separator, p.written? g separator = some (p.written g separator) := by
  refine ⟨fun before d _ hd => ?_, ofText?_eq settings text, fun p hp g separator => ?_⟩
  · have ht := Draft.tracks_ofLines hd
    refine ⟨ht.inRange, fun line indent o outer hb hl ho => ⟨?_, ?_, ?_⟩⟩
    · obtain ⟨b, hb', rfl⟩ := ht.innermost?_of_inner ho
      obtain ⟨rest, hrest⟩ := hb
      rw [← hrest, outline_append, outline_append]
      refine Closes.append (closes_iff.2 ⟨⟨indent, ?_⟩, ?_⟩) _
      · rw [← Line.read_of_ofString hl, ← length_outline]
        exact List.getElem?_concat_length
      · rw [← length_outline, List.take_left]
        exact hb'
    · exact ht.inRange.fill?_eq (ho ▸ List.mem_cons_self) _
    · exact ht.inRange.get?_fill (ho ▸ List.mem_cons_self) _
  · exact written?_eq (fun k e he r hr => refs_lt_size hp he hr) g separator

end Plan

end BlockSlots
