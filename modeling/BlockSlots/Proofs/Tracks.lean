import BlockSlots.Proofs.Account

/-!
# Drafts track their lines

A draft is made line by line, and each of its parts is what the account of the lines says
(`Draft.Tracks`): an open block is what its history makes of an empty block, a record has the slot
that was the next one when it was declared and is used if a plain line of its block mentions it, and
the entries are those of the lines.

* `Tracks.step`: a draft that tracks its lines still does after one more line.
* `tracks_ofLines`: every draft tracks its lines.
* `Plan.exists_tracks`: an accepted document is planned from a draft that tracks its lines and has
  no open block. So its entries are those of its lines (`Plan.get?_script`).
-/

set_option autoImplicit false

namespace BlockSlots

open Text

/-! ## Looking up records and entries -/

theorem Ledger.lt_size_of_get? {l : Ledger} {r : Ref} {row : Row} (h : l.get? r = some row) :
    r < l.size :=
  (Array.getElem?_eq_some_iff.1 h).1

theorem Ledger.get?_foldl_noteUse (l : Ledger) (refs : List Ref) (s : Ref) :
    (refs.foldl Ledger.noteUse l).get? s =
      (l.get? s).map fun row => if s ∈ refs then { row with binding.used := true } else row := by
  induction refs generalizing l with
  | nil => simp
  | cons r refs ih =>
    rw [List.foldl_cons, ih, Ledger.get?_noteUse, Option.map_map]
    congr 1
    funext row
    by_cases hr : r = s
    · subst hr
      by_cases hs : r ∈ refs <;> simp [hs]
    · have hr' : s ≠ r := Ne.symm hr
      by_cases hs : s ∈ refs <;> simp [hs, hr, hr']

theorem Ledger.size_foldl_noteUse (l : Ledger) (refs : List Ref) :
    (refs.foldl Ledger.noteUse l).size = l.size := by
  induction refs generalizing l with
  | nil => rfl
  | cons r refs ih => rw [List.foldl_cons, ih, Ledger.size_noteUse]

theorem Script.get?_push_of_lt {s : Script} {k : Nat} (h : k < s.size) (e : Entry) :
    (s.push e).get? k = s.get? k := by
  simp only [Script.size] at h
  simp [Script.get?, Script.push, Array.getElem?_push, Nat.ne_of_lt h]

theorem Script.get?_push_size (s : Script) (e : Entry) : (s.push e).get? s.size = some e := by
  simp [Script.get?, Script.push, Script.size]

theorem Script.get?_fill (s : Script) (i k : Nat) (refs : List Ref) :
    (s.fill i refs).get? k = if i = k then (s.get? k).map (Entry.fill refs) else s.get? k := by
  simp only [Script.get?, Script.fill, Array.getElem?_modify]

theorem Script.get?_keepUsed (s : Script) (ledger : Ledger) (k : Nat) :
    (s.keepUsed ledger).get? k = (s.get? k).map (Entry.keepUsed ledger) := by
  simp [Script.get?, Script.keepUsed]

/-- An act among the acts of two spans of lines belongs to the first span or follows it. -/
theorem prefix_append_cases {acts more before : List Act} {a : Act}
    (h : before ++ [a] <+: acts ++ more) :
    before ++ [a] <+: acts ∨ ∃ rest, before = acts ++ rest ∧ rest ++ [a] <+: more := by
  rcases List.prefix_or_prefix_of_prefix h (List.prefix_append acts more) with hp | hp
  · exact .inl hp
  · rcases List.prefix_concat_iff.1 hp with heq | ⟨rest, rfl⟩
    · exact .inl (heq ▸ List.prefix_rfl)
    · refine .inr ⟨rest, rfl, ?_⟩
      rwa [List.append_assoc, List.prefix_append_right_inj] at h

namespace Draft

/-- Each part of a draft is what the account of its lines says. -/
structure Tracks (lines : List String) (d : Draft) : Prop where
  inner : d.nest.inner = (openers (outline lines)).map (openBlock (outline lines))
  count : d.nest.count = entered (outline lines)
  size : d.ledger.size = declared (outline lines)
  length : d.script.size = lines.length
  number : d.lineCount = lines.length
  rows : ∀ {b : Nat} {before : List Act} {r : Ref} {name tag : String},
    before ++ [.bind r name tag] <+: history (outline lines) b →
    ∃ used, d.ledger.get? r =
      some ⟨⟨name, tag,
        (Block.ofActs (entered ((outline lines).take b)) before).nextSlot tag, used⟩,
        entered ((outline lines).take b)⟩
  owned : ∀ {r : Ref}, r < d.ledger.size → ∃ b, r ∈ records (history (outline lines) b)
  used : ∀ {r : Ref} {row : Row}, d.ledger.get? r = some row →
    (row.binding.used = true ↔ ∃ b n, UsedOn lines b n r)
  entries : ∀ {k : Nat} {text : String}, lines[k]? = some text →
    d.script.get? k = some (entryOf (outline lines) k text (Line.read text))

theorem tracks_nil : Tracks [] {} where
  inner := rfl
  count := rfl
  size := rfl
  length := rfl
  number := rfl
  rows h := by
    have hnil := List.prefix_nil.1 h
    simp at hnil
  owned h := absurd h (Nat.not_lt_zero _)
  used h := absurd (Ledger.lt_size_of_get? h) (Nat.not_lt_zero _)
  entries h := by cases h

section
variable {settings : Settings} {lines : List String} {line : String} {d d' : Draft}

/-- Every entry is that of a line. -/
theorem Tracks.exists_entryOf (h : Tracks lines d) {k : Nat} {e : Entry}
    (he : d.script.get? k = some e) :
    ∃ text, lines[k]? = some text ∧ entryOf (outline lines) k text (Line.read text) = e := by
  have hlt : k < lines.length := by
    rw [← h.length]
    exact (Array.getElem?_eq_some_iff.1 he).1
  have hk : lines[k]? = some lines[k] := List.getElem?_eq_getElem hlt
  rw [h.entries hk, Option.some.injEq] at he
  exact ⟨_, hk, he⟩

/-! ## Blocks -/

theorem Tracks.inner_eq_cons (h : Tracks lines d) {o : OpenBlock} {outer : List OpenBlock}
    (ho : d.nest.inner = o :: outer) : ∃ b rest, openers (outline lines) = b :: rest ∧
      o = openBlock (outline lines) b ∧ outer = rest.map (openBlock (outline lines)) := by
  rw [h.inner] at ho
  obtain ⟨b, rest, hb, rfl, rfl⟩ := List.map_eq_cons_iff.1 ho
  exact ⟨b, rest, hb, rfl, rfl⟩

theorem Tracks.innermost?_of_inner (h : Tracks lines d) {o : OpenBlock} {outer : List OpenBlock}
    (ho : d.nest.inner = o :: outer) :
    ∃ b, innermost? (outline lines) = some b ∧ o = openBlock (outline lines) b := by
  obtain ⟨b, rest, hb, rfl, -⟩ := h.inner_eq_cons ho
  exact ⟨b, by rw [innermost?, hb]; rfl, rfl⟩

theorem Tracks.current (h : Tracks lines d) :
    d.nest.current? = (innermost? (outline lines)).map (blockAt (outline lines)) := by
  rw [Nest.current?, h.inner, innermost?, List.head?_map, Option.map_map]
  rfl

theorem Tracks.step_inner (h : Tracks lines d) {l : Line} (hs : Step settings d line l d') :
    d'.nest.inner =
      (openers (outline lines ++ [l])).map (openBlock (outline lines ++ [l])) := by
  have hmap := map_openBlock_concat (outline lines) l
  rw [openers_concat]
  cases hs with
  | enter indent =>
    have hempty : openBlock (outline lines ++ [.enter indent]) (outline lines).length =
        ⟨{ id := d.nest.count }, d.script.size, d.lineCount⟩ := by
      rw [openBlock, blockAt, List.take_left, history_concat, history_eq_nil (Nat.le_refl _),
        h.count, h.length, h.number, length_outline]
      split <;> rfl
    have hsame : (openers (outline lines)).map (openBlock (outline lines ++ [.enter indent])) =
        d.nest.inner := by
      rw [hmap, h.inner]
      cases openers (outline lines) <;> rfl
    rw [Line.reopen, List.map_cons, hempty, hsame]
    rfl
  | leave indent ho =>
    obtain ⟨b, rest, hb, -, rfl⟩ := h.inner_eq_cons ho
    rw [hb] at hmap ⊢
    exact (List.cons.inj hmap).2.symm
  | declare indent ho hitems =>
    obtain ⟨b, rest, hb, rfl, rfl⟩ := h.inner_eq_cons ho
    simp only [Line.reopen]
    rw [hmap, ← h.inner, Nest.setCurrent, bindAll_block, h.size, ho]
    rfl
  | release indent ho hnames =>
    obtain ⟨b, rest, hb, rfl, rfl⟩ := h.inner_eq_cons ho
    simp only [Line.reopen]
    rw [hmap, ← h.inner, Nest.setCurrent, (unbindAll_eq_ok hnames).2, ho]
    rfl
  | plain =>
    simp only [Line.reopen]
    rw [hmap, Draft.plain, h.inner]
    cases openers (outline lines) <;> rfl

theorem Tracks.step_count (h : Tracks lines d) {l : Line} (hs : Step settings d line l d') :
    d'.nest.count = entered (outline lines ++ [l]) := by
  rw [entered_concat, ← h.count]
  cases hs <;> rfl

/-! ## Records -/

theorem Tracks.step_size (h : Tracks lines d) {l : Line} (hs : Step settings d line l d') :
    d'.ledger.size = declared (outline lines ++ [l]) := by
  rw [declared_concat, ← h.size]
  cases hs with
  | enter indent => rfl
  | leave indent ho => rfl
  | declare indent ho hitems => exact size_bindAll ..
  | release indent ho hnames => rfl
  | plain => exact Ledger.size_foldl_noteUse ..

/-- What was known of a record stays known, but for its use. -/
theorem Step.get?_of_get? {l : Line} (hs : Step settings d line l d') {r : Ref} {row : Row}
    (hr : d.ledger.get? r = some row) :
    ∃ used, d'.ledger.get? r = some { row with binding.used := used } := by
  cases hs with
  | enter indent => exact ⟨_, hr⟩
  | leave indent ho => exact ⟨_, hr⟩
  | declare indent ho hitems =>
    refine ⟨row.binding.used, ?_⟩
    rw [← hr]
    exact get?_bindAll_of_lt (Ledger.lt_size_of_get? hr) _ _
  | release indent ho hnames => exact ⟨_, hr⟩
  | plain =>
    rw [Draft.plain]
    dsimp only
    rw [Ledger.get?_foldl_noteUse, hr, Option.map_some]
    split
    · exact ⟨true, rfl⟩
    · exact ⟨row.binding.used, rfl⟩

/-- The record of an item of the line has the slot that was the next one in front of the item. -/
theorem Tracks.get?_of_acts_isPrefix (h : Tracks lines d) {l : Line}
    (hs : Step settings d line l d') {b : Nat} (hi : innermost? (outline lines) = some b)
    {rest : List Act} {r : Ref} {name tag : String}
    (hp : rest ++ [.bind r name tag] <+: l.acts (declared (outline lines))) :
    d'.ledger.get? r =
      some ⟨⟨name, tag, (rest.foldl Block.act (blockAt (outline lines) b)).nextSlot tag, false⟩,
        entered ((outline lines).take b)⟩ := by
  cases hs with
  | declare indent ho hitems =>
    obtain ⟨c, hc, rfl⟩ := h.innermost?_of_inner ho
    obtain rfl : c = b := Option.some.inj (hc.symm.trans hi)
    rw [Line.acts, ← h.size] at hp
    rw [get?_bindAll_of_isPrefix hp]
    simp only [openBlock, blockAt, Block.id_ofActs]
  | release indent ho hnames =>
    have hmem : Act.bind r name tag ∈ _ := hp.subset (List.mem_append_right _ List.mem_cons_self)
    rw [Line.acts, List.mem_map] at hmem
    obtain ⟨_, -, hn⟩ := hmem
    cases hn
  | enter indent => exact absurd (List.prefix_nil.1 hp) (by simp)
  | leave indent ho => exact absurd (List.prefix_nil.1 hp) (by simp)
  | plain => exact absurd (List.prefix_nil.1 hp) (by simp)

theorem Tracks.step_rows (h : Tracks lines d) {l : Line} (hs : Step settings d line l d') {b : Nat}
    {before : List Act} {r : Ref} {name tag : String}
    (hp : before ++ [.bind r name tag] <+: history (outline lines ++ [l]) b) :
    ∃ used, d'.ledger.get? r =
      some ⟨⟨name, tag,
        (Block.ofActs (entered ((outline lines ++ [l]).take b)) before).nextSlot tag, used⟩,
        entered ((outline lines ++ [l]).take b)⟩ := by
  rw [history_concat] at hp
  rcases prefix_append_cases hp with hold | ⟨rest, rfl, hnew⟩
  · obtain ⟨indent, hb⟩ := enter_of_mem_history (hold.subset List.mem_concat_self)
    have hlt := (List.getElem?_eq_some_iff.1 hb).1
    rw [List.take_append_of_le_length (Nat.le_of_lt hlt)]
    obtain ⟨used, hr⟩ := h.rows hold
    exact hs.get?_of_get? hr
  · split at hnew
    · next hi =>
      rw [List.take_append_of_le_length (Nat.le_of_lt (lt_of_innermost? hi)),
        Block.ofActs_append]
      exact ⟨false, h.get?_of_acts_isPrefix hs hi hnew⟩
    · exact absurd (List.prefix_nil.1 hnew) (by simp)

theorem Tracks.step_owned (h : Tracks lines d) {l : Line} (hs : Step settings d line l d') {r : Ref}
    (hr : r < d'.ledger.size) : ∃ b, r ∈ records (history (outline lines ++ [l]) b) := by
  rw [h.step_size hs, declared_concat] at hr
  by_cases hlt : r < declared (outline lines)
  · obtain ⟨b, hb⟩ := h.owned (h.size ▸ hlt)
    refine ⟨b, ?_⟩
    rw [history_concat, records_append]
    exact List.mem_append_left _ hb
  · -- only a declaration adds records, and it stands in a block
    have hmem : r ∈ records (l.acts (declared (outline lines))) := by
      rw [records_acts, List.mem_range'_1]
      exact ⟨Nat.not_lt.1 hlt, hr⟩
    cases hs with
    | declare indent ho hitems =>
      obtain ⟨b, hb, -⟩ := h.innermost?_of_inner ho
      refine ⟨b, ?_⟩
      rw [history_concat, if_pos hb, records_append]
      exact List.mem_append_right _ hmem
    | enter indent => exact absurd hr hlt
    | leave indent ho => exact absurd hr hlt
    | release indent ho hnames => exact absurd hr hlt
    | plain => exact absurd hr hlt

theorem Tracks.step_used_of_not_plain (h : Tracks lines d) {l : Line}
    (hs : Step settings d line l d') (hl : Line.read line = l) (hplain : l ≠ .plain) {r : Ref}
    {row : Row} (hr : d'.ledger.get? r = some row) :
    row.binding.used = true ↔ ∃ b n, UsedOn (lines ++ [line]) b n r := by
  have hiff : (∃ b n, UsedOn (lines ++ [line]) b n r) ↔ ∃ b n, UsedOn lines b n r := by
    simp only [usedOn_concat, hl, hplain, false_and, and_false, or_false]
  rw [hiff]
  cases hs with
  | @declare indent items _ _ ho hitems =>
    by_cases hlt : r < d.ledger.size
    · exact h.used ((get?_bindAll_of_lt hlt _ _).symm.trans hr)
    · -- a record of this line is not used yet
      have hsize := Ledger.lt_size_of_get? hr
      rw [size_bindAll] at hsize
      have hmem : r ∈ records (bindActs d.ledger.size items) := by
        rw [records_bindActs, List.mem_range'_1]
        exact ⟨Nat.not_lt.1 hlt, hsize⟩
      obtain ⟨before, name, tag, hp⟩ := exists_prefix_of_mem_records hmem
      rw [get?_bindAll_of_isPrefix hp, Option.some.injEq] at hr
      subst hr
      refine ⟨fun hu => (by cases hu), fun ⟨b, n, hu⟩ => ?_⟩
      exact absurd (h.size ▸ hu.lt_declared) hlt
  | enter indent => exact h.used hr
  | leave indent ho => exact h.used hr
  | release indent ho hnames => exact h.used hr
  | plain => exact absurd rfl hplain

theorem Tracks.usesIn (h : Tracks lines d) (line : String) :
    Draft.usesIn d.nest line = usesAfter (outline lines) line := by
  have hname : ∀ name, (d.nest.current?.bind (·.visible? name)) =
      resolve? (outline lines) name := by
    intro name
    rw [h.current, resolve?, Option.bind_map]
    refine congrArg _ (funext fun b => ?_)
    exact Block.visible?_ofActs ..
  rw [Draft.usesIn, usesAfter, Table.graph]
  simp only [hname]

theorem Tracks.used_of_plain (h : Tracks lines d) (hl : Line.read line = .plain) {r : Ref}
    {row : Row} (hr : (d.plain line).ledger.get? r = some row) :
    row.binding.used = true ↔ ∃ b n, UsedOn (lines ++ [line]) b n r := by
  have hnew : r ∈ (usesAfter (outline lines) line).values ↔
      ∃ b, innermost? (outline lines) = some b ∧
        ∃ name ∈ names line, (standing name (history (outline lines) b)).head? = some r := by
    rw [mem_values_usesAfter]
    simp only [resolve?_eq_some_iff]
    exact ⟨fun ⟨name, hn, b, hb, hs⟩ => ⟨b, hb, name, hn, hs⟩,
      fun ⟨b, hb, name, hn, hs⟩ => ⟨name, hn, b, hb, hs⟩⟩
  have hiff : (∃ b n, UsedOn (lines ++ [line]) b n r) ↔
      (∃ b n, UsedOn lines b n r) ∨ r ∈ (usesAfter (outline lines) line).values := by
    rw [hnew]
    simp only [usedOn_concat, hl, true_and]
    refine ⟨fun hx => ?_, fun hx => ?_⟩
    · obtain ⟨b, n, hu | ⟨-, hb, hname⟩⟩ := hx
      · exact .inl ⟨b, n, hu⟩
      · exact .inr ⟨b, hb, hname⟩
    · rcases hx with ⟨b, n, hu⟩ | ⟨b, hb, hname⟩
      · exact ⟨b, n, .inl hu⟩
      · exact ⟨b, _, .inr ⟨rfl, hb, hname⟩⟩
  rw [Draft.plain] at hr
  dsimp only at hr
  rw [h.usesIn, Ledger.get?_foldl_noteUse, Option.map_eq_some_iff] at hr
  obtain ⟨old, hold, rfl⟩ := hr
  rw [hiff, ← h.used hold]
  split
  · next hm => exact ⟨fun _ => .inr hm, fun _ => rfl⟩
  · next hm => exact ⟨.inl, fun hu => hu.resolve_right hm⟩

/-! ## Entries -/

/-- A line adds its own entry; if it closes a block, it fills in the one that opens the block. -/
theorem Tracks.step_script (h : Tracks lines d) {l : Line} (hs : Step settings d line l d') :
    d'.script =
      ((l.closed? (outline lines)).elim d.script
        fun b => d.script.fill b (blockAt (outline lines) b).refs).push
        (entryOf (outline lines ++ [l]) (outline lines).length line l) := by
  cases hs with
  | enter indent => rw [entryOf_concat_length]; rfl
  | leave indent ho =>
    obtain ⟨b, hb, rfl⟩ := h.innermost?_of_inner ho
    simp only [Line.closed?, entryOf, List.take_left, hb]
    rfl
  | declare indent ho hitems =>
    simp only [Line.closed?, entryOf, List.take_left, h.size]
    rfl
  | release indent ho hnames =>
    obtain ⟨b, hb, rfl⟩ := h.innermost?_of_inner ho
    simp only [Line.closed?, entryOf, List.take_left, hb, (unbindAll_eq_ok hnames).1]
    rfl
  | plain =>
    rw [Draft.plain]
    simp only [Line.closed?, entryOf, List.take_left, h.usesIn]
    rfl

theorem Tracks.step_entries (h : Tracks lines d) {l : Line} (hs : Step settings d line l d')
    (hl : Line.read line = l) {k : Nat} {text : String} (hk : (lines ++ [line])[k]? = some text) :
    d'.script.get? k = some (entryOf (outline lines ++ [l]) k text (Line.read text)) := by
  have hsize : ((l.closed? (outline lines)).elim d.script
      fun b => d.script.fill b (blockAt (outline lines) b).refs).size = lines.length := by
    rw [← h.length]
    cases l.closed? (outline lines) with
    | none => rfl
    | some b => exact Script.size_fill ..
  rw [h.step_script hs]
  rcases getElem?_concat_cases hk with ⟨hlt, hk⟩ | ⟨rfl, rfl⟩
  · have hlt' : k < (outline lines).length := by rwa [length_outline]
    rw [Script.get?_push_of_lt (hsize ▸ hlt), entryOf_concat_of_lt hlt']
    cases hc : l.closed? (outline lines) with
    | none => exact h.entries hk
    | some b =>
      rw [Option.elim_some, Script.get?_fill, h.entries hk, Option.map_some]
      by_cases hb : b = k
      · subst hb
        rw [if_pos rfl, if_pos rfl]
      · rw [if_neg hb, if_neg fun he => hb (Option.some.inj he)]
  · rw [hl, length_outline]
    exact hsize ▸ Script.get?_push_size ..

/-- **A draft that tracks its lines still does after one more line.** -/
theorem Tracks.step (h : Tracks lines d) {l : Line} (hs : Step settings d line l d')
    (hof : Line.ofString line = .ok l) : Tracks (lines ++ [line]) d'.next := by
  have hl := Line.read_of_ofString hof
  have hout : outline (lines ++ [line]) = outline lines ++ [l] := by
    rw [outline_append, ← hl]
    rfl
  have hentry := entry_of_take (take_eq_ok_iff.2 ⟨l, hof, hs⟩)
  refine { inner := ?_, count := ?_, size := ?_, length := ?_, number := ?_,
           rows := fun hp => ?_, owned := fun hr => ?_, used := fun hr => ?_,
           entries := fun hk => ?_ }
  · rw [hout]; exact (h.step_inner hs :)
  · rw [hout]; exact (h.step_count hs :)
  · rw [hout]; exact (h.step_size hs :)
  · show d'.script.size = _
    rw [hentry.1, h.length, List.length_append, List.length_singleton]
  · show d'.lineCount + 1 = _
    rw [hentry.2, h.number, List.length_append, List.length_singleton]
  · rw [hout] at hp ⊢
    exact (h.step_rows hs hp :)
  · rw [hout]; exact (h.step_owned hs hr :)
  · by_cases hplain : l = .plain
    · subst hplain
      cases hs
      exact h.used_of_plain hl hr
    · exact h.step_used_of_not_plain hs hl hplain hr
  · rw [hout]; exact h.step_entries hs hl hk

/-- **Every draft tracks its lines.** -/
theorem tracks_ofLines (h : ofLines settings lines = .ok d) : Tracks lines d := by
  induction lines using List.reverseRecOn generalizing d with
  | nil => cases h; exact tracks_nil
  | append_singleton lines line ih =>
    obtain ⟨d₀, d₁, hd₀, htake, rfl⟩ := ofLines_concat_eq_ok h
    obtain ⟨l, hl, hs⟩ := take_eq_ok_iff.1 htake
    exact (ih hd₀).step hs hl

end

end Draft

/-- **An accepted document** is planned from a draft that tracks its lines and has no open block. -/
theorem Plan.exists_tracks {settings : Settings} {lines : List String} {p : Plan}
    (h : Plan.ofLines settings lines = .ok p) :
    ∃ d, Draft.Tracks lines d ∧ openers (outline lines) = [] ∧
      p = ⟨d.ledger, if settings.hideUnused then d.script.keepUsed d.ledger else d.script⟩ := by
  obtain ⟨d, hd, hi, hp⟩ := Plan.ofLines_eq_ok_iff.1 h
  have ht := Draft.tracks_ofLines hd
  rw [ht.inner, List.map_eq_nil_iff] at hi
  exact ⟨d, ht, hi, hp⟩

namespace Plan

variable {settings : Settings} {lines : List String} {p : Plan} {n : Nat}

/-- **The entries of an accepted document** are those of its lines, with what is unused dropped if
the settings hide it. -/
theorem get?_script (h : ofLines settings lines = .ok p) {line : String}
    (hn : lines[n]? = some line) : p.script.get? n =
      some (if settings.hideUnused then
        (entryOf (outline lines) n line (Line.read line)).keepUsed p.ledger
      else entryOf (outline lines) n line (Line.read line)) := by
  obtain ⟨d, ht, -, rfl⟩ := exists_tracks h
  dsimp only
  split
  · rw [Script.get?_keepUsed, ht.entries hn]
    rfl
  · exact ht.entries hn

theorem size_script (h : ofLines settings lines = .ok p) : p.script.size = lines.length := by
  obtain ⟨d, ht, -, rfl⟩ := exists_tracks h
  rw [← ht.length]
  dsimp only
  split
  · exact Script.size_keepUsed ..
  · rfl

theorem exists_line (h : ofLines settings lines = .ok p) {e : Entry}
    (he : p.script.get? n = some e) : ∃ line, lines[n]? = some line := by
  have hlt : n < lines.length := by
    rw [← size_script h]
    exact (Array.getElem?_eq_some_iff.1 he).1
  exact ⟨lines[n], List.getElem?_eq_getElem hlt⟩

end Plan

end BlockSlots
