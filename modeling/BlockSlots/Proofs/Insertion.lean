import BlockSlots.Proofs.Embedding

/-!
# Lines put into a document

Lines `mid` are put between the lines `before` and `after` of a document. They must close the blocks
they open and no other (`Proper`), and directly in the blocks of the document they may do nothing
but open blocks (`Insertable`). Then neither side touches the blocks of the other.

* `eq_insert`: a list with the elements of one list moved and those of another between them.
* `history_append`, `mirrors_mid`: the lines put in do the same to their blocks as alone.
* `history_insert`, `mirrors_around`: so do the lines around them, without them.
-/

set_option autoImplicit false

namespace BlockSlots

/-! ## Positions -/

/-- Adds `n` to the numbers from `a` on. -/
def shiftFrom (a n k : Nat) : Nat := if k < a then k else k + n

theorem shiftFrom_of_lt {a n k : Nat} (h : k < a) : shiftFrom a n k = k := if_pos h

theorem shiftFrom_of_le {a n k : Nat} (h : a ≤ k) : shiftFrom a n k = k + n :=
  if_neg (Nat.not_lt.2 h)

theorem shiftFrom_injective (a n : Nat) : Function.Injective (shiftFrom a n) := by
  intro k m h
  unfold shiftFrom at h
  split at h <;> split at h <;> omega

section
variable {α : Type} {a b c : List α} {k n : Nat} {x : α}

theorem getElem?_insert_mid (h : b[k]? = some x) : (a ++ b ++ c)[a.length + k]? = some x := by
  have hlt := (List.getElem?_eq_some_iff.1 h).1
  rw [List.append_assoc, List.getElem?_append_right (Nat.le_add_right _ _),
    Nat.add_sub_cancel_left, List.getElem?_append_left hlt, h]

theorem getElem?_insert_around (b : List α) (h : (a ++ c)[k]? = some x) :
    (a ++ b ++ c)[shiftFrom a.length b.length k]? = some x := by
  rcases getElem?_append_cases h with ⟨hlt, hk⟩ | ⟨j, rfl, hj⟩
  · rw [shiftFrom_of_lt hlt, List.append_assoc, List.getElem?_append_left hlt, hk]
  · have hpos : a.length + j + b.length = (a ++ b).length + j := by
      rw [List.length_append]
      omega
    rw [shiftFrom_of_le (Nat.le_add_right _ _), hpos,
      List.getElem?_append_right (Nat.le_add_right _ _), Nat.add_sub_cancel_left, hj]

/-- An element of the whole list is one of those around or one of those put in. -/
theorem getElem?_insert_cases (h : (a ++ b ++ c)[n]? = some x) :
    (∃ k, n = shiftFrom a.length b.length k ∧ (a ++ c)[k]? = some x) ∨
      ∃ k, n = a.length + k ∧ b[k]? = some x := by
  rcases getElem?_append_cases h with ⟨-, h⟩ | ⟨j, rfl, hj⟩
  · rcases getElem?_append_cases h with ⟨hlt, h⟩ | ⟨j, rfl, hj⟩
    · exact .inl ⟨n, (shiftFrom_of_lt hlt).symm, by rw [List.getElem?_append_left hlt, h]⟩
    · exact .inr ⟨j, rfl, hj⟩
  · refine .inl ⟨a.length + j, ?_, ?_⟩
    · rw [shiftFrom_of_le (Nat.le_add_right _ _), List.length_append]
      omega
    · rw [List.getElem?_append_right (Nat.le_add_right _ _), Nat.add_sub_cancel_left, hj]

theorem take_insert_mid (hk : k ≤ b.length) :
    (a ++ b ++ c).take (a.length + k) = a ++ b.take k := by
  rw [List.append_assoc, List.take_length_add_append, List.take_append_of_le_length hk]

theorem take_insert_cases (a b c : List α) (k : Nat) :
    (k ≤ a.length ∧ (a ++ c).take k = a.take k ∧
      (a ++ b ++ c).take (shiftFrom a.length b.length k) = a.take k) ∨
    ∃ j, (a ++ c).take k = a ++ c.take j ∧
      (a ++ b ++ c).take (shiftFrom a.length b.length k) = a ++ b ++ c.take j := by
  rcases Nat.lt_or_ge k a.length with hlt | hge
  · have hle := Nat.le_of_lt hlt
    rw [shiftFrom_of_lt hlt, List.append_assoc]
    exact .inl ⟨hle, List.take_append_of_le_length hle, List.take_append_of_le_length hle⟩
  · obtain ⟨j, rfl⟩ := Nat.exists_eq_add_of_le hge
    have hpos : a.length + j + b.length = (a ++ b).length + j := by
      rw [List.length_append]
      omega
    rw [shiftFrom_of_le hge, hpos]
    exact .inr ⟨j, List.take_length_add_append j, List.take_length_add_append j⟩

/-- A list with the elements of `a` moved and those of `b` between them. -/
theorem eq_insert {whole : List α} (hn : n ≤ a.length) (hlen : whole.length = a.length + b.length)
    (haround : ∀ k < a.length, whole[shiftFrom n b.length k]? = a[k]?)
    (hmid : ∀ k < b.length, whole[n + k]? = b[k]?) : whole = a.take n ++ b ++ a.drop n := by
  have htake : (a.take n).length = n := by rw [List.length_take, Nat.min_eq_left hn]
  have hall : ∀ (i : Nat) (x : α), (a.take n ++ b ++ a.drop n)[i]? = some x →
      whole[i]? = some x := by
    intro i x hx
    rcases getElem?_insert_cases hx with ⟨k, rfl, hk⟩ | ⟨k, rfl, hk⟩
    · rw [List.take_append_drop] at hk
      rw [htake, haround k (List.getElem?_eq_some_iff.1 hk).1, hk]
    · rw [htake, hmid k (List.getElem?_eq_some_iff.1 hk).1, hk]
  apply List.ext_getElem
  · simp only [List.length_append, List.length_drop, htake]
    omega
  · intro i hi hi'
    have h := hall i _ (List.getElem?_eq_getElem hi')
    rw [List.getElem?_eq_getElem hi] at h
    exact Option.some.inj h

end

/-! ## Moved acts -/

theorem bindActs_rename {ρ : Nat → Nat} {ref ref' : Nat} {items : List ListItem}
    (h : ∀ i < items.length, ρ (ref + i) = ref' + i) :
    bindActs ref' items = (bindActs ref items).map (Act.rename ρ) := by
  induction items generalizing ref ref' with
  | nil => rfl
  | cons item items ih =>
    have hfirst : ρ ref = ref' := h 0 (Nat.succ_pos _)
    have hrest : ∀ i < items.length, ρ (ref + 1 + i) = ref' + 1 + i := by
      intro i hi
      have hnext := h (i + 1) (Nat.succ_lt_succ hi)
      rwa [Nat.add_comm i 1, ← Nat.add_assoc, ← Nat.add_assoc] at hnext
    rw [bindActs, bindActs, List.map_cons, ← ih hrest, Act.rename, hfirst]

/-- A line does the same to a block wherever it stands, but for the records. -/
theorem Line.acts_rename {ρ : Nat → Nat} {ref ref' : Nat} {l : Line}
    (h : ∀ i < l.declares, ρ (ref + i) = ref' + i) :
    l.acts ref' = (l.acts ref).map (Act.rename ρ) := by
  cases l with
  | enter indent => rfl
  | leave indent => rfl
  | declare indent items => exact bindActs_rename h
  | release indent names =>
    rw [Line.acts, Line.acts, List.map_map]
    rfl
  | plain => rfl

/-! ## Lines after other lines -/

/-- No line closes a block that is not open. -/
def Proper (ls : List Line) : Prop :=
  ∀ k indent, ls[k]? = some (.leave indent) → openers (ls.take k) ≠ []

theorem Proper.of_append {ls more : List Line} (h : Proper (ls ++ more)) : Proper ls := by
  intro k indent hk
  have hlt := (List.getElem?_eq_some_iff.1 hk).1
  have hopen := h k indent (by rw [List.getElem?_append_left hlt, hk])
  rwa [List.take_append_of_le_length (Nat.le_of_lt hlt)] at hopen

theorem Proper.take {ls : List Line} (h : Proper ls) (k : Nat) : Proper (ls.take k) := by
  rw [← List.take_append_drop k ls] at h
  exact h.of_append

section
variable {before mid : List Line}

/-- Proper lines leave the blocks open that were open in front of them. -/
theorem openers_append (h : Proper mid) (before : List Line) :
    openers (before ++ mid) = (openers mid).map (before.length + ·) ++ openers before := by
  induction mid using List.reverseRecOn with
  | nil => simp
  | append_singleton mid l ih =>
    rw [← List.append_assoc, openers_concat, openers_concat, ih h.of_append, List.length_append]
    cases l with
    | enter indent => rfl
    | leave indent =>
      have hopen := h mid.length indent List.getElem?_concat_length
      rw [List.take_left] at hopen
      obtain ⟨b, outer, ho⟩ := List.exists_cons_of_ne_nil hopen
      rw [ho]
      rfl
    | declare indent items => rfl
    | release indent names => rfl
    | plain => rfl

theorem innermost?_append (h : Proper mid) (before : List Line) : innermost? (before ++ mid) =
    ((innermost? mid).map (before.length + ·)).or (innermost? before) := by
  rw [innermost?, openers_append h, List.head?_append, List.head?_map]
  rfl

/-- Between its ends a block is open. -/
theorem openers_take_block_ne_nil (h : Proper mid) {k : Nat} (hk : k ≤ mid.length)
    (indent indent' : String) :
    openers ((.enter indent :: mid ++ [Line.leave indent']).take (k + 1)) ≠ [] := by
  have htake : (.enter indent :: mid ++ [Line.leave indent']).take (k + 1) =
      [.enter indent] ++ mid.take k := by
    rw [List.cons_append, List.take_succ_cons, List.take_append_of_le_length hk]
    rfl
  rw [htake, openers_append (h.take k)]
  exact List.append_ne_nil_of_right_ne_nil _ (List.cons_ne_nil _ _)

theorem proper_of_balanced {ls : List Line} (h : Balanced ls) : Proper ls := by
  induction h with
  | nil =>
    intro k indent hk
    cases hk
  | @single l hl =>
    intro k indent hk
    rw [List.getElem?_singleton] at hk
    split at hk
    · cases hk
      cases hl
    · cases hk
  | @block mid indent₁ indent₂ hmid ih =>
    intro k indent hk
    cases k with
    | zero => cases hk
    | succ k =>
      have hlt := (List.getElem?_eq_some_iff.1 hk).1
      rw [List.length_append, List.length_cons, List.length_singleton] at hlt
      exact openers_take_block_ne_nil ih (by omega) indent₁ indent₂
  | @append ls more _ _ ih ih' =>
    intro k indent hk
    rcases Nat.lt_or_ge k ls.length with hlt | hge
    · rw [List.getElem?_append_left hlt] at hk
      rw [List.take_append_of_le_length (Nat.le_of_lt hlt)]
      exact ih k indent hk
    · rw [List.getElem?_append_right hge] at hk
      rw [List.take_append, List.take_of_length_le hge, openers_append (ih'.take _)]
      simp [ih' _ _ hk]

theorem history_append (h : Proper mid) (before : List Line) (b : Nat) :
    history (before ++ mid) (before.length + b) =
      (history mid b).map (Act.rename (declared before + ·)) := by
  induction mid using List.reverseRecOn with
  | nil =>
    rw [List.append_nil, history_eq_nil (Nat.le_add_right _ _)]
    rfl
  | append_singleton mid l ih =>
    have hi : innermost? (before ++ mid) = some (before.length + b) ↔ innermost? mid = some b := by
      rw [innermost?_append h.of_append]
      cases innermost? mid with
      | none =>
        rw [Option.map_none, Option.none_or]
        refine ⟨fun hb => ?_, fun hb => (by cases hb)⟩
        have hlt := lt_of_innermost? hb
        omega
      | some c => simp
    have hacts : l.acts (declared (before ++ mid)) =
        (l.acts (declared mid)).map (Act.rename (declared before + ·)) := by
      refine Line.acts_rename fun i _ => ?_
      rw [declared_append, Nat.add_assoc]
    rw [← List.append_assoc, history_concat, history_concat, ih h.of_append, hacts, List.map_append]
    simp only [hi]
    split <;> rfl

/-! ## Insertable lines -/

/-- The lines `mid` can be put after `before`: they close just the blocks they open, and where none
of these is open they do nothing but open one, unless no block is open after `before`. -/
structure Insertable (before mid : List Line) : Prop where
  proper : Proper mid
  closed : openers mid = []
  secluded : ∀ k l, mid[k]? = some l → openers (mid.take k) = [] →
    openers before = [] ∨ ∃ indent, l = .enter indent

theorem Insertable.openers_eq (h : Insertable before mid) :
    openers (before ++ mid) = openers before := by
  rw [openers_append h.proper, h.closed, List.map_nil, List.nil_append]

theorem Insertable.history_eq (h : Insertable before mid) {b : Nat} (hb : b < before.length) :
    history (before ++ mid) b = history before b := by
  have hgo : ∀ n ≤ mid.length, history (before ++ mid.take n) b = history before b := by
    intro n hn
    induction n with
    | zero => rw [List.take_zero, List.append_nil]
    | succ n ih =>
      have hlast : mid[n]? = some mid[n] := List.getElem?_eq_getElem hn
      rw [List.take_succ_eq_append_getElem hn, ← List.append_assoc, history_concat,
        ih (Nat.le_of_lt hn)]
      split
      · next hi =>
        -- block `b` is the innermost one only where no block of `mid` is open
        rw [innermost?_append (h.proper.take n)] at hi
        cases ho : innermost? (mid.take n) with
        | some c =>
          rw [ho, Option.map_some, Option.some_or, Option.some.injEq] at hi
          omega
        | none =>
          rw [ho, Option.map_none, Option.none_or] at hi
          rcases h.secluded n _ hlast (List.head?_eq_none_iff.1 ho) with hnil | ⟨indent, hl⟩
          · rw [innermost?, hnil] at hi
            cases hi
          · rw [hl]
            exact List.append_nil _
      · exact List.append_nil _
  have hall := hgo mid.length (Nat.le_refl _)
  rwa [List.take_length] at hall

theorem Insertable.openers_insert (h : Insertable before mid) (after : List Line) :
    openers (before ++ mid ++ after) =
      (openers (before ++ after)).map (shiftFrom before.length mid.length) := by
  induction after using List.reverseRecOn with
  | nil =>
    rw [List.append_nil, List.append_nil, h.openers_eq]
    conv_lhs => rw [← List.map_id (openers before)]
    exact List.map_congr_left fun b hb => (shiftFrom_of_lt (lt_of_mem_openers hb)).symm
  | append_singleton after l ih =>
    rw [← List.append_assoc, ← List.append_assoc, openers_concat, openers_concat, ih]
    cases l with
    | enter indent =>
      have hnew : (before ++ mid ++ after).length =
          shiftFrom before.length mid.length (before ++ after).length := by
        rw [shiftFrom_of_le (by simp)]
        simp only [List.length_append]
        omega
      rw [Line.reopen, Line.reopen, List.map_cons, hnew]
    | leave indent => exact List.map_tail.symm
    | declare indent items => rfl
    | release indent names => rfl
    | plain => rfl

theorem Insertable.innermost?_insert (h : Insertable before mid) (after : List Line) :
    innermost? (before ++ mid ++ after) =
      (innermost? (before ++ after)).map (shiftFrom before.length mid.length) := by
  rw [innermost?, h.openers_insert, List.head?_map]
  rfl

theorem history_rename_of_lt {ls : List Line} {a : Nat} (h : declared ls ≤ a) (n b : Nat) :
    (history ls b).map (Act.rename (shiftFrom a n)) = history ls b :=
  map_rename_of_records fun _ hr =>
    shiftFrom_of_lt (Nat.lt_of_lt_of_le (lt_declared_of_mem_records hr) h)

theorem Insertable.history_insert (h : Insertable before mid) (after : List Line) (b : Nat) :
    history (before ++ mid ++ after) (shiftFrom before.length mid.length b) =
      (history (before ++ after) b).map
        (Act.rename (shiftFrom (declared before) (declared mid))) := by
  induction after using List.reverseRecOn with
  | nil =>
    rw [List.append_nil, List.append_nil, history_rename_of_lt (Nat.le_refl _)]
    rcases Nat.lt_or_ge b before.length with hlt | hge
    · rw [shiftFrom_of_lt hlt, h.history_eq hlt]
    · rw [shiftFrom_of_le hge, history_eq_nil hge, history_eq_nil]
      rw [List.length_append]
      omega
  | append_singleton after l ih =>
    have hi : innermost? (before ++ mid ++ after) =
        some (shiftFrom before.length mid.length b) ↔ innermost? (before ++ after) = some b := by
      rw [h.innermost?_insert, ← Option.map_some, (Option.map_injective
        (shiftFrom_injective _ _)).eq_iff]
    have hacts : l.acts (declared (before ++ mid ++ after)) =
        (l.acts (declared (before ++ after))).map
          (Act.rename (shiftFrom (declared before) (declared mid))) := by
      refine Line.acts_rename fun i _ => ?_
      have hle : declared before ≤ declared before + declared after + i := by omega
      rw [declared_append, declared_append, declared_append, shiftFrom_of_le hle]
      omega
    rw [← List.append_assoc, ← List.append_assoc, history_concat, history_concat, ih, hacts,
      List.map_append]
    simp only [hi]
    split <;> rfl

/-! ## Blocks on both sides -/

theorem Insertable.mirrors_mid (h : Insertable before mid) (after : List Line) {k : Nat} {l : Line}
    (hk : mid[k]? = some l) (hl : ∀ indent, l ≠ .enter indent) :
    Mirrors (before.length + ·) (declared before + ·) (mid.take k)
      ((before ++ mid ++ after).take (before.length + k)) := by
  have hlt := (List.getElem?_eq_some_iff.1 hk).1
  rw [take_insert_mid (Nat.le_of_lt hlt)]
  refine ⟨?_, fun b _ => history_append (h.proper.take k) before b⟩
  rw [innermost?_append (h.proper.take k)]
  cases hi : innermost? (mid.take k) with
  | some b => rfl
  | none =>
    rcases h.secluded k l hk (List.head?_eq_none_iff.1 hi) with hnil | ⟨indent, he⟩
    · rw [innermost?, hnil]
      rfl
    · exact absurd he (hl indent)

theorem mirrors_take (mid : List Line) {k : Nat} (hk : k ≤ before.length) :
    Mirrors (shiftFrom before.length mid.length) (shiftFrom (declared before) (declared mid))
      (before.take k) (before.take k) where
  innermost := by
    cases hi : innermost? (before.take k) with
    | none => rfl
    | some b =>
      have hlt := lt_of_innermost? hi
      rw [List.length_take] at hlt
      rw [Option.map_some, shiftFrom_of_lt (by omega)]
  history b hi := by
    have hlt := lt_of_innermost? hi
    rw [List.length_take] at hlt
    have hdeclared := declared_append (before.take k) (before.drop k)
    rw [List.take_append_drop] at hdeclared
    rw [shiftFrom_of_lt (by omega), history_rename_of_lt (by omega)]

theorem Insertable.mirrors_around (h : Insertable before mid) (after : List Line) (k : Nat) :
    Mirrors (shiftFrom before.length mid.length) (shiftFrom (declared before) (declared mid))
      ((before ++ after).take k)
      ((before ++ mid ++ after).take (shiftFrom before.length mid.length k)) := by
  rcases take_insert_cases before mid after k with ⟨hle, htake, htake'⟩ | ⟨j, htake, htake'⟩
  · rw [htake, htake']
    exact mirrors_take mid hle
  · rw [htake, htake']
    exact ⟨h.innermost?_insert _, fun b _ => h.history_insert _ b⟩

theorem declared_around (before mid after : List Line) {k : Nat} {l : Line}
    (hk : (before ++ after)[k]? = some l) {i : Nat} (hi : i < l.declares) :
    shiftFrom (declared before) (declared mid) (declared ((before ++ after).take k) + i) =
      declared ((before ++ mid ++ after).take (shiftFrom before.length mid.length k)) + i := by
  rcases getElem?_append_cases hk with ⟨hlt, hk⟩ | ⟨j, rfl, -⟩
  · have hle := declared_take_add_le hk
    have htake := Nat.le_of_lt hlt
    rw [shiftFrom_of_lt hlt, List.append_assoc, List.take_append_of_le_length htake,
      List.take_append_of_le_length htake, shiftFrom_of_lt (by omega)]
  · have hpos : before.length + j + mid.length = (before ++ mid).length + j := by
      rw [List.length_append]
      omega
    rw [shiftFrom_of_le (Nat.le_add_right _ _), hpos, List.take_length_add_append,
      List.take_length_add_append, declared_append, declared_append, declared_append,
      shiftFrom_of_le (by omega)]
    omega

/-- The blocks of the lines put in are closed after them. -/
theorem Insertable.not_mem_openers (h : Insertable before mid) (b : Nat) :
    before.length + b ∉ openers (before ++ mid) := by
  intro hm
  rw [h.openers_eq] at hm
  have hlt := lt_of_mem_openers hm
  omega

/-- The history of a block of the lines put in ends with them. -/
theorem Insertable.history_mid (h : Insertable before mid) {b : Nat} (hb : b < mid.length)
    (after : List Line) : history (before ++ mid ++ after) (before.length + b) =
      (history mid b).map (Act.rename (declared before + ·)) := by
  have hlt : before.length + b < (before ++ mid).length := by
    rw [List.length_append]
    omega
  rw [history_append_of_not_mem hlt (h.not_mem_openers b)]
  exact history_append h.proper before b

/-- Where a block of the lines put in is the innermost one, no other line stands. -/
theorem Insertable.lt_of_innermost?_mid (h : Insertable before mid) {after : List Line} {b n : Nat}
    (hb : b < mid.length)
    (hi : innermost? ((before ++ mid ++ after).take n) = some (before.length + b)) :
    before.length < n ∧ n < before.length + mid.length := by
  have hbn := lt_of_innermost? hi
  rw [List.length_take] at hbn
  refine ⟨by omega, Nat.lt_of_not_le fun hge => ?_⟩
  -- after the lines put in, their blocks are closed
  obtain ⟨j, rfl⟩ := Nat.exists_eq_add_of_le hge
  have hm := List.mem_of_mem_head? hi
  rw [← List.length_append, List.take_length_add_append] at hm
  refine not_mem_openers_append ?_ (h.not_mem_openers b) _ hm
  rw [List.length_append]
  omega

/-- Where a block around the lines put in is the innermost one, they do nothing but open blocks. -/
theorem Insertable.innermost?_mid_ne (h : Insertable before mid) (after : List Line) {k : Nat}
    {l : Line} (hk : mid[k]? = some l) (hl : ∀ indent, l ≠ .enter indent) (b : Nat) :
    innermost? ((before ++ mid ++ after).take (before.length + k)) ≠
      some (shiftFrom before.length mid.length b) := by
  intro hi
  rw [(h.mirrors_mid after hk hl).innermost, Option.map_eq_some_iff] at hi
  obtain ⟨c, hc, hcb⟩ := hi
  have hck := lt_of_innermost? hc
  have hlt := (List.getElem?_eq_some_iff.1 hk).1
  rw [List.length_take] at hck
  unfold shiftFrom at hcb
  split at hcb <;> omega

end

end BlockSlots
