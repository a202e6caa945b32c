import BlockSlots.Proofs.Declarations
import BlockSlots.Proofs.Hiding

/-!
# What is used

A record is marked as used if the entry of some plain line refers to it. Where unused bindings are
hidden, a declaration and a release list what they list otherwise, without the records that are not
marked; so what is used is declared once, and released once if it is released.

* `get?_script_eq_plain_iff`: the entries of plain lines.
* `used_iff_mentions`: what a mark says.
* `Script.listed_keepUsed`: what hiding leaves of declarations and releases.
* `exists_mem_refs_of_listed`: what a line in a block lists has its slot listed at the ends of the
  block.
* `used_exactly`: all of it, for every document that is accepted.
-/

set_option autoImplicit false

namespace BlockSlots

open Text

/-- The entry of some plain line refers to record `r`. -/
def Plan.Mentions (p : Plan) (r : Ref) : Prop :=
  ∃ n indent line uses, p.script.get? n = some ⟨indent, .plain line uses⟩ ∧ r ∈ uses.values

/-- Whether a record is marked as used. -/
def Ledger.isUsed (l : Ledger) (r : Ref) : Bool := (l.binding? r).any (·.used)

theorem Ledger.isUsed_of_get? {l : Ledger} {r : Ref} {row : Row} (h : l.get? r = some row) :
    l.isUsed r = row.binding.used := by
  rw [isUsed, binding?, h]
  rfl

/-! ## Hiding -/

theorem Entry.listed_keepUsed (ledger : Ledger) {mark : Mark}
    (hmark : mark = .declare ∨ mark = .release) (e : Entry) :
    (e.keepUsed ledger).listed mark = (e.listed mark).filter ledger.isUsed := by
  obtain ⟨indent, content⟩ := e
  cases content with
  | plain line uses => rfl
  | marked mark' refs =>
    by_cases heq : mark' = mark
    · subst heq
      rw [Entry.listed_marked]
      rcases hmark with rfl | rfl
      · exact Entry.listed_marked ..
      · exact Entry.listed_marked ..
    · simp [Entry.keepUsed, Entry.listed, heq]

/-- **What hiding leaves** of declarations and releases is what is used. -/
theorem Script.listed_keepUsed (s : Script) (ledger : Ledger) {mark : Mark}
    (hmark : mark = .declare ∨ mark = .release) (n : Nat) :
    (s.keepUsed ledger).listed mark n = (s.listed mark n).filter ledger.isUsed := by
  rw [listed, listed, keepUsed, Array.toList_map, ← List.map_take, List.flatMap_map,
    List.filter_flatMap]
  exact List.flatMap_congr fun e _ => Entry.listed_keepUsed ledger hmark e

namespace Plan

variable {settings : Settings} {lines : List String} {p : Plan} {n : Nat} {line : String} {r : Ref}

/-! ## Marks -/

/-- The entries of plain lines, hidden or not. -/
theorem get?_script_eq_plain_iff (h : ofLines settings lines = .ok p) {indent : String}
    {uses : Uses} : p.script.get? n = some ⟨indent, .plain line uses⟩ ↔
      lines[n]? = some line ∧ Line.read line = .plain ∧ indent = "" ∧
        uses = usesAfter (outline (lines.take n)) line := by
  refine ⟨fun he => ?_, fun hx => ?_⟩
  · obtain ⟨text, htext⟩ := exists_line h he
    cases hread : Line.read text with
    | plain =>
      rw [get?_script_of_plain h htext hread] at he
      cases he
      exact ⟨htext, hread, rfl, rfl⟩
    | _ =>
      rw [get?_script h htext, hread] at he
      split at he
      · cases he
      · cases he
  · obtain ⟨hn, hplain, rfl, rfl⟩ := hx
    exact get?_script_of_plain h hn hplain

theorem mentions_iff (h : ofLines settings lines = .ok p) :
    p.Mentions r ↔ ∃ b n, UsedOn lines b n r := by
  refine ⟨fun hx => ?_, fun hx => ?_⟩
  · obtain ⟨n, indent, line, uses, he, hr⟩ := hx
    obtain ⟨hn, hplain, -, rfl⟩ := (get?_script_eq_plain_iff h).1 he
    obtain ⟨name, hname, hresolve⟩ := mem_values_usesAfter.1 hr
    obtain ⟨b, hi, hs⟩ := resolve?_eq_some_iff.1 hresolve
    exact ⟨b, n, line, name, hn, hplain, hi, hname, hs⟩
  · obtain ⟨b, n, line, name, hn, hplain, hi, hname, hs⟩ := hx
    refine ⟨n, "", line, _, (get?_script_eq_plain_iff h).2 ⟨hn, hplain, rfl, rfl⟩, ?_⟩
    exact mem_values_usesAfter.2 ⟨name, hname, resolve?_eq_some_iff.2 ⟨b, hi, hs⟩⟩

/-- **What a mark says**: some plain line refers to the record. -/
theorem used_iff_mentions (h : ofLines settings lines = .ok p) {row : Row}
    (hr : p.ledger.get? r = some row) : row.binding.used = true ↔ p.Mentions r := by
  rw [mentions_iff h]
  obtain ⟨d, ht, -, rfl⟩ := exists_tracks h
  exact ht.used hr

/-! ## Slots -/

/-- The entries at the two ends of block `b` list the slot of record `r`. -/
def SlotListed (p : Plan) (lines : List String) (b : Nat) (r : Ref) : Prop :=
  ∃ e indent indent' refs, Closes (outline lines) b e ∧
    p.script.get? b = some ⟨indent, .marked .enter refs⟩ ∧
    p.script.get? e = some ⟨indent', .marked .leave refs⟩ ∧
    ∃ s ∈ refs, ∃ row row', p.ledger.get? r = some row ∧ p.ledger.get? s = some row' ∧
      row.sameSlot row' = true

end Plan

/-- What a declaration or a release lists was declared directly in the block around it. -/
theorem exists_mem_records_of_listed {settings : Settings} {ls : List Line} {n : Nat} {l : Line}
    (hl : ls[n]? = some l) (hadmitted : l.Admitted settings (ls.take n)) {mark : Mark}
    (hmark : mark = .declare ∨ mark = .release) {text : String} {r : Ref}
    (hr : r ∈ (entryOf ls n text l).listed mark) :
    ∃ b, innermost? (ls.take n) = some b ∧ r ∈ records (history ls b) := by
  rcases hmark with rfl | rfl
  · rw [listed_entryOf_declare] at hr
    cases l with
    | declare indent items =>
      obtain ⟨b, hi⟩ := Option.ne_none_iff_exists'.1 hadmitted.1
      exact ⟨b, hi, mem_records_history_iff.2 ⟨n, _, hl, hi, hr⟩⟩
    | _ => cases hr
  · rw [listed_entryOf_release] at hr
    cases hi : innermost? (ls.take n) with
    | none =>
      rw [Line.frees, hi] at hr
      cases hr
    | some b =>
      obtain ⟨hlt, hget⟩ := List.getElem?_eq_some_iff.1 hl
      have hnext : r ∈ releases [] (history (ls.take (n + 1)) b) := by
        rw [List.take_succ_eq_append_getElem hlt, hget, releases_history_concat, if_pos hi]
        exact List.mem_append_right _ hr
      have hfront := history_take_isPrefix ls (n + 1) b
      exact ⟨b, rfl, (hfront.filterMap Act.ref?).subset (mem_records_of_releases hnext)⟩

/-- The slot of a record of the block is listed, if it is used or nothing is hidden. -/
theorem ListsSlots.exists_mem {settings : Settings} {lines : List String} {ledger : Ledger}
    {b i : Nat} {refs : List Ref} (hlists : ListsSlots settings lines ledger b refs) {r : Ref}
    (hr : r ∈ records (history (outline lines) b)) (hid : ledger.slotId? r = some i)
    (hused : settings.hideUnused = true → UsesSlot lines ledger b i) :
    ∃ s ∈ refs, ledger.slotId? s = some i := by
  cases hs : settings.hideUnused with
  | true => exact List.mem_map.1 ((hlists.used hs i).2 (hused hs))
  | false =>
    obtain ⟨k, hperm, hslots⟩ := hlists.all hs
    have hlt : i < k := (hslots i).2 ⟨r, hr, hid⟩
    exact List.mem_map.1 (hperm.mem_iff.2 (List.mem_map_of_mem (List.mem_range.2 hlt)))

theorem Ledger.slotId?_of_get? {l : Ledger} {r : Ref} {row : Row} (h : l.get? r = some row) :
    l.slotId? r = some row.binding.slot.id := by
  rw [slotId?, binding?, h]
  rfl

/-- Records of one block with the same slot number stand for the same slot. -/
theorem Draft.Tracks.exists_sameSlot {lines : List String} {d : Draft} (ht : Tracks lines d)
    {b : Nat} {r s : Ref} (hr : r ∈ records (history (outline lines) b))
    (hs : s ∈ records (history (outline lines) b)) (hid : d.ledger.slotId? s = d.ledger.slotId? r) :
    ∃ row row', d.ledger.get? r = some row ∧ d.ledger.get? s = some row' ∧
      row.sameSlot row' = true := by
  obtain ⟨_, _, _, _, -, hrow⟩ := ht.get?_of_mem_records hr
  obtain ⟨_, _, _, _, -, hrow'⟩ := ht.get?_of_mem_records hs
  rw [Ledger.slotId?_of_get? hrow, Ledger.slotId?_of_get? hrow', Option.some.injEq] at hid
  exact ⟨_, _, hrow, hrow', Row.sameSlot_iff.2 ⟨rfl, hid.symm⟩⟩

namespace Plan

variable {settings : Settings} {text : String} {p : Plan} {n : Nat} {r : Ref}

/-- The ends of a block list the slot of a record of the block, unless the record is hidden. -/
theorem slotListed_of_mem_records (h : ofText settings text = .ok p) {b : Nat}
    (hr : r ∈ records (history (outline (Text.lines text)) b))
    (hused : settings.hideUnused = true → p.ledger.isUsed r = true) :
    p.SlotListed (Text.lines text) b r := by
  obtain ⟨_, henter⟩ := enter_of_mem_records hr
  have hopen := (exists_ofLines_iff.1 ⟨p, h⟩).1
  obtain ⟨e, hcloses⟩ := exists_closes henter (hopen ▸ List.not_mem_nil)
  obtain ⟨d, indent, indent', refs, ht, hledger, hb, he, hlists, -⟩ :=
    exists_refs_of_closes h hcloses
  obtain ⟨_, _, _, _, -, hrow⟩ := ht.get?_of_mem_records hr
  have hid := Ledger.slotId?_of_get? hrow
  obtain ⟨s, hs, hsid⟩ := hlists.exists_mem hr hid fun hhide => by
    have hmark := hused hhide
    rw [hledger, Ledger.isUsed_of_get? hrow] at hmark
    obtain ⟨c, m, hu⟩ := (ht.used hrow).1 hmark
    obtain rfl := eq_of_mem_records hu.mem_records hr
    exact ⟨m, r, hu, hid⟩
  refine ⟨e, indent, indent', refs, hcloses, hb, he, s, hs, ?_⟩
  rw [hledger]
  exact ht.exists_sameSlot hr (hlists.declared s hs) (hsid.trans hid.symm)

/-- **The slot of what a line in a block lists** is listed at the ends of the block. -/
theorem slotListed_of_listed (h : ofText settings text = .ok p) {indent : String} {mark : Mark}
    {refs : List Ref} (hmark : mark = .declare ∨ mark = .release)
    (he : p.script.get? n = some ⟨indent, .marked mark refs⟩) (hr : r ∈ refs) :
    ∃ b, innermost? (outline ((Text.lines text).take n)) = some b ∧
      p.SlotListed (Text.lines text) b r := by
  obtain ⟨line, hn⟩ := exists_line h he
  obtain ⟨l, hl, hadmitted⟩ := (exists_ofLines_iff.1 ⟨p, h⟩).2 n line hn
  have hread := Line.read_of_ofString hl
  rw [get?_script h hn, hread, Option.some.injEq] at he
  have hlisted : r ∈ (entryOf (outline (Text.lines text)) n line l).listed mark ∧
      (settings.hideUnused = true → p.ledger.isUsed r = true) := by
    rw [← Entry.listed_marked indent mark refs, ← he] at hr
    split at hr
    · rw [Entry.listed_keepUsed _ hmark, List.mem_filter] at hr
      exact ⟨hr.1, fun _ => hr.2⟩
    · next hs => exact ⟨hr, fun hs' => absurd hs' hs⟩
  obtain ⟨b, hi, hrb⟩ := exists_mem_records_of_listed (hread ▸ getElem?_outline hn) hadmitted hmark
    hlisted.1
  rw [outline_take]
  exact ⟨b, hi, slotListed_of_mem_records h hrb hlisted.2⟩

/-! ## Documents -/

/-- What the declarations and the releases of a document list if what is unused is hidden. -/
theorem listed_of_hideUnused (h : ofText settings text = .ok p) (hs : settings.hideUnused = true) :
    p.script.listed .declare p.script.size = (List.range p.ledger.size).filter p.ledger.isUsed ∧
      p.script.listed .release p.script.size =
        (freed (outline (Text.lines text))).filter p.ledger.isUsed := by
  have hsize := size_script h
  obtain ⟨d, ht, -, rfl⟩ := exists_tracks h
  rw [hsize]
  simp only [hs, if_true]
  rw [Script.listed_keepUsed _ _ (.inl rfl), Script.listed_keepUsed _ _ (.inr rfl),
    ht.listed_declare (Nat.le_refl _), ht.listed_release (Nat.le_refl _), List.take_length, ht.size]
  exact ⟨rfl, rfl⟩

/-- **Marks of use are exact.** A record is marked as used if the entry of some plain line refers
to it. Where unused bindings are hidden, a declaration lists the records of its items, and a release
what its names are released from, both in order and without the records that are not marked; so what
is used is listed by one declaration and, if it is released, by one release, and what is not used by
none. The slot of what they list is listed at both ends of the block around them. -/
theorem used_exactly (h : ofText settings text = .ok p) :
    (∀ r row, p.ledger.get? r = some row → (row.binding.used = true ↔ p.Mentions r)) ∧
    (settings.hideUnused = true →
      (∀ n line indent items, (Text.lines text)[n]? = some line →
        Line.ofString line = .ok (.declare indent items) →
        p.script.get? n = some ⟨indent, .marked .declare
          ((List.range' (declared (outline ((Text.lines text).take n))) items.length).filter
            p.ledger.isUsed)⟩) ∧
      (∀ n line indent names, (Text.lines text)[n]? = some line →
        Line.ofString line = .ok (.release indent names) →
        ∃ b, innermost? (outline ((Text.lines text).take n)) = some b ∧
          p.script.get? n = some ⟨indent, .marked .release
            ((releases (history (outline ((Text.lines text).take n)) b) (names.map .unbind)).filter
              p.ledger.isUsed)⟩) ∧
      ∀ r row, p.ledger.get? r = some row →
        (row.binding.used = true → (p.script.listed .declare p.script.size).count r = 1 ∧
          ((∃ b, Releases (history (outline (Text.lines text)) b) r) →
            (p.script.listed .release p.script.size).count r = 1)) ∧
        (row.binding.used = false → (p.script.listed .declare p.script.size).count r = 0 ∧
          (p.script.listed .release p.script.size).count r = 0)) ∧
    ∀ n indent mark refs, mark = .declare ∨ mark = .release →
      p.script.get? n = some ⟨indent, .marked mark refs⟩ → ∀ r ∈ refs,
        ∃ b, innermost? (outline ((Text.lines text).take n)) = some b ∧
          p.SlotListed (Text.lines text) b r := by
  refine ⟨fun r row => used_iff_mentions h, fun hs => ⟨?_, ?_, ?_⟩,
    fun n indent mark refs hmark he r hr => slotListed_of_listed h hmark he hr⟩
  · intro n line indent items hn hline
    rw [get?_script h hn, Line.read_of_ofString hline, if_pos hs, entryOf, ← outline_take]
    rfl
  · intro n line indent names hn hline
    obtain ⟨l, hl, hadmitted⟩ := (exists_ofLines_iff.1 ⟨p, h⟩).2 n line hn
    obtain rfl := Except.ok.inj (hl.symm.trans hline)
    rw [← outline_take] at hadmitted
    obtain ⟨b, hi, -⟩ := hadmitted
    refine ⟨b, hi, ?_⟩
    rw [get?_script h hn, Line.read_of_ofString hline, if_pos hs, entryOf, ← outline_take, hi,
      ← Block.released_ofActs (entered ((outline ((Text.lines text).take n)).take b))]
    rfl
  · intro r row hrow
    obtain ⟨hdeclare, hrelease⟩ := listed_of_hideUnused h hs
    have hmark := Ledger.isUsed_of_get? hrow
    rw [hdeclare, hrelease]
    refine ⟨fun hused => ⟨?_, fun hreleased => ?_⟩, fun hunused => ⟨?_, ?_⟩⟩
    · rw [List.count_filter (hmark.trans hused)]
      exact List.count_eq_one_of_mem List.nodup_range
        (List.mem_range.2 (Ledger.lt_size_of_get? hrow))
    · rw [List.count_filter (hmark.trans hused)]
      obtain ⟨b, hb⟩ := hreleased
      exact List.count_eq_one_of_mem (nodup_freed _)
        (mem_freed_iff.2 ⟨b, mem_releases_iff.2 hb⟩)
    · rw [List.count_eq_zero, List.mem_filter, hmark, hunused]
      simp
    · rw [List.count_eq_zero, List.mem_filter, hmark, hunused]
      simp

theorem used_exactly_sample : ∃ p, ofText {} sample = .ok p ∧
    (∀ r row, p.ledger.get? r = some row → (row.binding.used = true ↔ p.Mentions r)) ∧
    p.script.get? 1 = some ⟨"", .marked .declare ([0, 1].filter p.ledger.isUsed)⟩ ∧
    p.ledger.isUsed 0 = true ∧ p.ledger.isUsed 1 = false ∧
    (p.script.listed .declare p.script.size).count 0 = 1 := by
  have hline : Line.ofString "~def x:int y:int" =
      .ok (.declare "" [⟨"x", some "int"⟩, ⟨"y", some "int"⟩]) := by decide +kernel
  have hused : (ofText {} sample).toOption.map (fun p => (p.ledger.isUsed 0, p.ledger.isUsed 1)) =
      some (true, false) := by decide +kernel
  have hdeclared : declared (outline ((Text.lines sample).take 1)) = 0 := by decide +kernel
  have hok := isOk_sample
  cases hp : ofText {} sample with
  | error e => rw [hp] at hok; cases hok
  | ok p =>
    rw [hp, Except.toOption, Option.map_some, Option.some.injEq, Prod.mk.injEq] at hused
    obtain ⟨hmentions, hhidden, -⟩ := used_exactly hp
    obtain ⟨hdeclares, -, hcounts⟩ := hhidden rfl
    have hentry := hdeclares 1 _ _ _ (by decide +kernel) hline
    rw [hdeclared] at hentry
    obtain ⟨row, hrow⟩ : ∃ row, p.ledger.get? 0 = some row := by
      cases hget : p.ledger.get? 0 with
      | none => simp [Ledger.isUsed, Ledger.binding?, hget] at hused
      | some row => exact ⟨row, rfl⟩
    have hmark := (Ledger.isUsed_of_get? hrow).symm.trans hused.1
    exact ⟨p, rfl, hmentions, hentry, hused.1, hused.2, ((hcounts 0 row hrow).1 hmark).1⟩

end Plan

end BlockSlots
