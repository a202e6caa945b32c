import BlockSlots.Proofs.Step

/-!
# An account of a document

What a document comes to, told from its lines and not from a run over them: the state of a block,
which records a line uses, and the entry of a line. Each part depends on the lines in front of it;
only the entry that opens a block looks ahead, to the end of the block.

* `map_openBlock_concat`: one more line acts on the innermost open block and on no other.
* `usedOn_concat`: one more line uses what its names stand for.
* `entryOf_concat_of_lt`: one more line changes no entry but the one that opens the block it closes.
* `exists_closes`: a block that is not left open is closed by some line.
-/

set_option autoImplicit false

namespace BlockSlots

open Text

/-! ## Blocks by number -/

/-- The number of blocks that some lines open. -/
def entered (ls : List Line) : Nat := ls.countP fun
  | .enter _ => true
  | _ => false

/-- The state of block `b` after some lines. -/
def blockAt (ls : List Line) (b : Nat) : Block :=
  .ofActs (entered (ls.take b)) (history ls b)

/-- Block `b`, with where it was opened. -/
def openBlock (ls : List Line) (b : Nat) : OpenBlock := ⟨blockAt ls b, b, b⟩

theorem entered_concat (ls : List Line) (l : Line) :
    entered (ls ++ [l]) = entered ls + entered [l] :=
  List.countP_append

theorem entered_take_lt {ls : List Line} {b c : Nat} {indent : String}
    (hb : ls[b]? = some (.enter indent)) (hlt : b < c) :
    entered (ls.take b) < entered (ls.take c) := by
  obtain ⟨hlen, hget⟩ := List.getElem?_eq_some_iff.1 hb
  have hsplit : ls.take c = ls.take b ++ .enter indent :: (ls.take c).drop (b + 1) := by
    have hdrop := List.take_append_drop b (ls.take c)
    rw [List.take_take, Nat.min_eq_left (Nat.le_of_lt hlt)] at hdrop
    rw [← hget]
    conv_lhs => rw [← hdrop]
    have hlt' : b < (ls.take c).length := by rw [List.length_take]; omega
    rw [List.drop_eq_getElem_cons hlt', List.getElem_take]
  rw [hsplit, entered, entered, List.countP_append, List.countP_cons]
  simp

/-- Different blocks have different numbers. -/
theorem entered_take_injective {ls : List Line} {b c : Nat} {indent indent' : String}
    (hb : ls[b]? = some (.enter indent)) (hc : ls[c]? = some (.enter indent'))
    (h : entered (ls.take b) = entered (ls.take c)) : b = c := by
  rcases Nat.lt_trichotomy b c with hlt | heq | hlt
  · exact absurd h (Nat.ne_of_lt (entered_take_lt hb hlt))
  · exact heq
  · exact absurd h (Nat.ne_of_gt (entered_take_lt hc hlt))

theorem enter_of_mem_history {ls : List Line} {b : Nat} {a : Act} (h : a ∈ history ls b) :
    ∃ indent, ls[b]? = some (.enter indent) := by
  induction ls using List.reverseRecOn with
  | nil => cases h
  | append_singleton ls l ih =>
    have hold : (∃ indent, ls[b]? = some (.enter indent)) →
        ∃ indent, (ls ++ [l])[b]? = some (.enter indent) := by
      rintro ⟨indent, hb⟩
      exact ⟨indent, by rw [List.getElem?_append_left (List.getElem?_eq_some_iff.1 hb).1, hb]⟩
    rw [history_concat, List.mem_append] at h
    rcases h with h | h
    · exact hold (ih h)
    · split at h
      · next hi => exact hold (enter_of_mem_openers (List.mem_of_mem_head? hi))
      · cases h

theorem blockAt_concat {ls : List Line} {b : Nat} (hb : b ≤ ls.length) (l : Line) :
    blockAt (ls ++ [l]) b =
      if innermost? ls = some b then (l.acts (declared ls)).foldl Block.act (blockAt ls b)
      else blockAt ls b := by
  rw [blockAt, List.take_append_of_le_length hb, history_concat]
  split
  · rw [Block.ofActs_append]
    rfl
  · rw [List.append_nil]
    rfl

/-- A line acts on the innermost open block and on no other. -/
theorem map_openBlock_concat (ls : List Line) (l : Line) :
    (openers ls).map (openBlock (ls ++ [l])) =
      ((openers ls).map (openBlock ls)).modifyHead fun o =>
        { o with block := (l.acts (declared ls)).foldl Block.act o.block } := by
  have hnodup := nodup_openers ls
  have hlen : ∀ b ∈ openers ls, b ≤ ls.length := fun b hb => Nat.le_of_lt (lt_of_mem_openers hb)
  cases ho : openers ls with
  | nil => rfl
  | cons b outer =>
    rw [ho] at hnodup hlen
    have hhead : innermost? ls = some b := by rw [innermost?, ho]; rfl
    rw [List.map_cons, List.map_cons, List.modifyHead_cons]
    congr 1
    · rw [openBlock, blockAt_concat (hlen b List.mem_cons_self), if_pos hhead]
      rfl
    · refine List.map_congr_left fun c hc => ?_
      have hne : innermost? ls ≠ some c := by
        rw [hhead]
        intro he
        cases he
        exact (List.nodup_cons.1 hnodup).1 hc
      rw [openBlock, blockAt_concat (hlen c (List.mem_cons_of_mem _ hc)), if_neg hne]
      rfl

/-! ## Uses -/

/-- The record that a name stands for after some lines. -/
def resolve? (ls : List Line) (name : String) : Option Ref :=
  (innermost? ls).bind fun b => (standing name (history ls b)).head?

/-- The records that the names of a line after some lines stand for. -/
def usesAfter (ls : List Line) (line : String) : Uses :=
  .ofList (Table.graph (resolve? ls) (names line))

/-- Plain line `n` stands directly in block `b` and mentions a name that stands for record `r`. -/
def UsedOn (lines : List String) (b n : Nat) (r : Ref) : Prop :=
  ∃ line name, lines[n]? = some line ∧ Line.read line = .plain ∧
    innermost? (outline (lines.take n)) = some b ∧ name ∈ names line ∧
    (standing name (history (outline (lines.take n)) b)).head? = some r

theorem resolve?_eq_some_iff {ls : List Line} {name : String} {r : Ref} :
    resolve? ls name = some r ↔
      ∃ b, innermost? ls = some b ∧ (standing name (history ls b)).head? = some r :=
  Option.bind_eq_some_iff

theorem mem_values_usesAfter {ls : List Line} {line : String} {r : Ref} :
    r ∈ (usesAfter ls line).values ↔ ∃ name ∈ names line, resolve? ls name = some r :=
  Table.mem_values_ofList_graph

/-- A record that is used was declared in the block. -/
theorem UsedOn.mem_records {lines : List String} {b n : Nat} {r : Ref} (h : UsedOn lines b n r) :
    r ∈ records (history (outline lines) b) := by
  obtain ⟨line, name, -, -, -, -, hs⟩ := h
  have hm := mem_records_of_standing (List.mem_of_mem_head? hs)
  rw [outline_take] at hm
  exact ((history_take_isPrefix (outline lines) n b).filterMap Act.ref?).subset hm

theorem UsedOn.lt_declared {lines : List String} {b n : Nat} {r : Ref} (h : UsedOn lines b n r) :
    r < declared (outline lines) :=
  lt_declared_of_mem_records h.mem_records

theorem usedOn_concat {lines : List String} {line : String} {b n : Nat} {r : Ref} :
    UsedOn (lines ++ [line]) b n r ↔ UsedOn lines b n r ∨
      n = lines.length ∧ Line.read line = .plain ∧ innermost? (outline lines) = some b ∧
        ∃ name ∈ names line, (standing name (history (outline lines) b)).head? = some r := by
  refine ⟨fun h => ?_, fun h => ?_⟩
  · obtain ⟨text, name, hget, hplain, hi, hname, hs⟩ := h
    rcases getElem?_concat_cases hget with ⟨hlt, hget⟩ | ⟨rfl, rfl⟩
    · rw [List.take_append_of_le_length (Nat.le_of_lt hlt)] at hi hs
      exact .inl ⟨text, name, hget, hplain, hi, hname, hs⟩
    · rw [List.take_left] at hi hs
      exact .inr ⟨rfl, hplain, hi, name, hname, hs⟩
  · rcases h with ⟨text, name, hget, hplain, hi, hname, hs⟩ | ⟨rfl, hplain, hi, name, hname, hs⟩
    · have hlt := (List.getElem?_eq_some_iff.1 hget).1
      have htake : (lines ++ [line]).take n = lines.take n :=
        List.take_append_of_le_length (Nat.le_of_lt hlt)
      refine ⟨text, name, ?_, hplain, by rwa [htake], hname, by rwa [htake]⟩
      rw [List.getElem?_append_left hlt, hget]
    · refine ⟨line, name, List.getElem?_concat_length, hplain, ?_, hname, ?_⟩
      · rwa [List.take_left]
      · rwa [List.take_left]

/-! ## Entries -/

/-- The entry of line number `k`, with a text and its reading, of a document with the outline
`ls`. -/
def entryOf (ls : List Line) (k : Nat) (text : String) : Line → Entry
  | .enter indent => ⟨indent, .marked .enter (if k ∈ openers ls then [] else (blockAt ls k).refs)⟩
  | .leave indent =>
    ⟨indent, .marked .leave
      (((innermost? (ls.take k)).map (blockAt (ls.take k))).elim [] Block.refs)⟩
  | .declare indent items =>
    ⟨indent, .marked .declare (List.range' (declared (ls.take k)) items.length)⟩
  | .release indent names =>
    ⟨indent, .marked .release
      (((innermost? (ls.take k)).map (blockAt (ls.take k))).elim [] (·.released names))⟩
  | .plain => ⟨"", .plain text (usesAfter (ls.take k) text)⟩

/-- The entry of the last line opens a block that is still empty. -/
theorem entryOf_concat_length (ls : List Line) (text : String) (indent : String) :
    entryOf (ls ++ [.enter indent]) ls.length text (.enter indent) =
      ⟨indent, .marked .enter []⟩ := by
  rw [entryOf, openers_concat, Line.reopen, if_pos List.mem_cons_self]

/-- The block that a line closes. -/
def Line.closed? (ls : List Line) : Line → Option Nat
  | .leave _ => innermost? ls
  | _ => none

theorem mem_openers_concat {ls : List Line} {k : Nat} (hk : k < ls.length) (l : Line) :
    k ∈ openers (ls ++ [l]) ↔ k ∈ openers ls ∧ l.closed? ls ≠ some k := by
  rw [openers_concat]
  cases l with
  | enter indent =>
    have hne : k ≠ ls.length := Nat.ne_of_lt hk
    simp [Line.reopen, Line.closed?, hne]
  | leave indent =>
    have hnodup := nodup_openers ls
    rw [Line.reopen, Line.closed?, innermost?]
    cases ho : openers ls with
    | nil => simp
    | cons c outer =>
      rw [ho, List.nodup_cons] at hnodup
      simp only [List.tail_cons, List.mem_cons, List.head?_cons, ne_eq, Option.some.injEq]
      refine ⟨fun hm => ?_, fun hm => ?_⟩
      · refine ⟨.inr hm, ?_⟩
        rintro rfl
        exact hnodup.1 hm
      · exact hm.1.resolve_left (Ne.symm hm.2)
  | declare indent items => simp [Line.reopen, Line.closed?]
  | release indent names => simp [Line.reopen, Line.closed?]
  | plain => simp [Line.reopen, Line.closed?]

/-- A block that is closed is not opened again. -/
theorem not_mem_openers_append {ls : List Line} {b : Nat} (hb : b < ls.length)
    (h : b ∉ openers ls) (more : List Line) : b ∉ openers (ls ++ more) := by
  induction more using List.reverseRecOn with
  | nil => rwa [List.append_nil]
  | append_singleton more l ih =>
    rw [← List.append_assoc, mem_openers_concat (by rw [List.length_append]; omega)]
    exact fun hm => ih hm.1

/-- The history of a block ends where the block is closed. -/
theorem history_append_of_not_mem {ls : List Line} {b : Nat} (hb : b < ls.length)
    (h : b ∉ openers ls) (more : List Line) : history (ls ++ more) b = history ls b := by
  induction more using List.reverseRecOn with
  | nil => rw [List.append_nil]
  | append_singleton more l ih =>
    have hi : innermost? (ls ++ more) ≠ some b := fun hi =>
      not_mem_openers_append hb h more (List.mem_of_mem_head? hi)
    rw [← List.append_assoc, history_concat, if_neg hi, List.append_nil, ih]

theorem take_succ_of_closes {ls : List Line} {b e : Nat} (h : Closes ls b e) : b < e ∧
    innermost? (ls.take e) = some b ∧ ∃ indent, ls.take (e + 1) = ls.take e ++ [.leave indent] := by
  obtain ⟨⟨indent, hl⟩, hi⟩ := closes_iff.1 h
  obtain ⟨hlt, hget⟩ := List.getElem?_eq_some_iff.1 hl
  have hbe := lt_of_innermost? hi
  rw [List.length_take] at hbe
  exact ⟨by omega, hi, indent, by rw [List.take_succ_eq_append_getElem hlt, hget]⟩

theorem not_mem_openers_take_of_closes {ls : List Line} {b e : Nat} (h : Closes ls b e) :
    b ∉ openers (ls.take (e + 1)) := by
  obtain ⟨-, hi, indent, hnext⟩ := take_succ_of_closes h
  rw [hnext, mem_openers_concat (lt_of_innermost? hi)]
  intro hm
  exact hm.2 hi

theorem lt_length_take_of_closes {ls : List Line} {b e : Nat} (h : Closes ls b e) :
    b < (ls.take (e + 1)).length := by
  obtain ⟨-, hi, indent, hnext⟩ := take_succ_of_closes h
  rw [hnext, List.length_append]
  exact Nat.lt_add_right _ (lt_of_innermost? hi)

theorem not_mem_openers_of_closes {ls : List Line} {b e : Nat} (h : Closes ls b e) :
    b ∉ openers ls := by
  have hrest := not_mem_openers_append (lt_length_take_of_closes h)
    (not_mem_openers_take_of_closes h) (ls.drop (e + 1))
  rwa [List.take_append_drop] at hrest

theorem Closes.append {ls : List Line} {b e : Nat} (h : Closes ls b e) (more : List Line) :
    Closes (ls ++ more) b e := by
  obtain ⟨before, indent, mid, indent', after, rfl, hmid, hb, he⟩ := h
  exact ⟨before, indent, mid, indent', after ++ more, by simp, hmid, hb, he⟩

theorem Line.eq_leave_of_closed? {ls : List Line} {l : Line} {b : Nat}
    (h : l.closed? ls = some b) : (∃ indent, l = .leave indent) ∧ innermost? ls = some b := by
  cases l with
  | leave indent => exact ⟨⟨indent, rfl⟩, h⟩
  | enter indent => cases h
  | declare indent items => cases h
  | release indent names => cases h
  | plain => cases h

/-- A block that is opened and not left open is closed by some line. -/
theorem exists_closes {ls : List Line} {b : Nat} {indent : String}
    (hb : ls[b]? = some (.enter indent)) (h : b ∉ openers ls) : ∃ e, Closes ls b e := by
  induction ls using List.reverseRecOn with
  | nil => cases hb
  | append_singleton ls l ih =>
    rcases getElem?_concat_cases hb with ⟨hlt, hb⟩ | ⟨rfl, rfl⟩
    · rw [mem_openers_concat hlt] at h
      by_cases hm : b ∈ openers ls
      · -- the last line closes the block
        have hclosed : l.closed? ls = some b := by
          by_contra hne
          exact h ⟨hm, hne⟩
        obtain ⟨⟨indent', rfl⟩, hi⟩ := Line.eq_leave_of_closed? hclosed
        refine ⟨ls.length, closes_iff.2 ⟨⟨indent', List.getElem?_concat_length⟩, ?_⟩⟩
        rwa [List.take_left]
      · obtain ⟨e, he⟩ := ih hb hm
        exact ⟨e, he.append [l]⟩
    · rw [openers_concat] at h
      exact absurd List.mem_cons_self h

theorem blockAt_of_closes {ls : List Line} {b e : Nat} (h : Closes ls b e) :
    blockAt ls b = blockAt (ls.take e) b := by
  obtain ⟨hbe, hi, indent, hnext⟩ := take_succ_of_closes h
  -- the closing line itself does not act on the block
  have hlast : history (ls.take (e + 1)) b = history (ls.take e) b := by
    rw [hnext, history_concat, if_pos hi]
    exact List.append_nil _
  have hrest := history_append_of_not_mem (lt_length_take_of_closes h)
    (not_mem_openers_take_of_closes h) (ls.drop (e + 1))
  rw [List.take_append_drop] at hrest
  rw [blockAt, blockAt, hrest, hlast, List.take_take, Nat.min_eq_left (Nat.le_of_lt hbe)]

/-- A later line changes an earlier entry only where it closes the block that the entry opens. -/
theorem entryOf_concat_of_lt {ls : List Line} {k : Nat} (hk : k < ls.length) (l l' : Line)
    (text : String) : entryOf (ls ++ [l]) k text l' =
      if l.closed? ls = some k then (entryOf ls k text l').fill (blockAt ls k).refs
      else entryOf ls k text l' := by
  have htake : (ls ++ [l]).take k = ls.take k := List.take_append_of_le_length (Nat.le_of_lt hk)
  cases l' with
  | leave indent => simp only [entryOf, htake, Entry.fill, ite_self]
  | declare indent items => simp only [entryOf, htake, Entry.fill, ite_self]
  | release indent names => simp only [entryOf, htake, Entry.fill, ite_self]
  | plain => simp only [entryOf, htake, Entry.fill, ite_self]
  | enter indent =>
    simp only [entryOf]
    have hmem := mem_openers_concat hk l
    have hblock := blockAt_concat (Nat.le_of_lt hk) l
    by_cases hc : l.closed? ls = some k
    · -- the line is the end of block `k`, and does not act on it
      have hin : k ∉ openers (ls ++ [l]) := fun h => (hmem.1 h).2 hc
      have hsame : blockAt (ls ++ [l]) k = blockAt ls k := by
        cases l with
        | leave indent' => rw [hblock]; split <;> rfl
        | _ => cases hc
      rw [if_neg hin, if_pos hc, hsame]
      rfl
    · rw [if_neg hc]
      by_cases hin : k ∈ openers ls
      · rw [if_pos hin, if_pos (hmem.2 ⟨hin, hc⟩)]
      · have hi : innermost? ls ≠ some k := fun hi => hin (List.mem_of_mem_head? hi)
        rw [if_neg hin, if_neg fun h => hin (hmem.1 h).1, hblock, if_neg hi]

end BlockSlots
