import BlockSlots.Proofs.Composition

/-!
# When a document is accepted, by counting

`Plan.exists_ofLines_iff` says which documents are accepted in terms of open blocks and of what
names stand for. Here both are counted: a block is open where more lines open blocks than close
them, and a name can be released where more entries of the block declare it than release it.

* `proper_iff`: no line closes a block that is not open if no prefix closes more blocks than it
  opens. The blocks that are open are then those opened less those closed (`length_openers`).
* `Matched`: acts each of whose releases is of a name that was declared more often than released.
  The declarations left over stand (`length_standing`).
* `ofText_ok_iff_acceptable`: a document is accepted exactly under five conditions on its lines.
-/

set_option autoImplicit false

namespace BlockSlots

open Text

/-! ## Counting blocks -/

/-- The number of lines that close a block. -/
def exited (ls : List Line) : Nat := ls.countP fun
  | .leave _ => true
  | _ => false

theorem exited_concat (ls : List Line) (l : Line) :
    exited (ls ++ [l]) = exited ls + exited [l] :=
  List.countP_append

theorem proper_concat {ls : List Line} {l : Line} :
    Proper (ls ++ [l]) ↔ Proper ls ∧ ((∃ indent, l = .leave indent) → openers ls ≠ []) := by
  constructor
  · intro h
    refine ⟨h.of_append, ?_⟩
    rintro ⟨indent, rfl⟩
    have hopen := h ls.length indent List.getElem?_concat_length
    rwa [List.take_left] at hopen
  · rintro ⟨h, hl⟩ k indent hk
    rcases getElem?_concat_cases hk with ⟨hlt, hk⟩ | ⟨rfl, rfl⟩
    · rw [List.take_append_of_le_length (Nat.le_of_lt hlt)]
      exact h k indent hk
    · rw [List.take_left]
      exact hl ⟨indent, rfl⟩

/-- The blocks that are open are those that were opened less those that were closed. -/
theorem length_openers {ls : List Line} (h : Proper ls) :
    (openers ls).length + exited ls = entered ls := by
  induction ls using List.reverseRecOn with
  | nil => rfl
  | append_singleton ls l ih =>
    obtain ⟨hls, hl⟩ := proper_concat.1 h
    have hcount := ih hls
    rw [openers_concat, exited_concat, entered_concat]
    cases l with
    | enter indent => simp [Line.reopen, exited, entered] at hcount ⊢; omega
    | leave indent =>
      have hpos := List.length_pos_iff.2 (hl ⟨indent, rfl⟩)
      simp [Line.reopen, exited, entered] at hcount ⊢
      omega
    | declare indent items => simpa [Line.reopen, exited, entered] using hcount
    | release indent names => simpa [Line.reopen, exited, entered] using hcount
    | plain => simpa [Line.reopen, exited, entered] using hcount

theorem exited_le_entered {ls : List Line} (h : Proper ls) : exited ls ≤ entered ls := by
  have hcount := length_openers h
  omega

theorem openers_ne_nil_iff {ls : List Line} (h : Proper ls) :
    openers ls ≠ [] ↔ exited ls < entered ls := by
  have hcount := length_openers h
  rw [← List.length_pos_iff]
  omega

/-- **No line closes a block that is not open** if no prefix closes more blocks than it opens. -/
theorem proper_iff {ls : List Line} :
    Proper ls ↔ ∀ k ≤ ls.length, exited (ls.take k) ≤ entered (ls.take k) := by
  constructor
  · intro h k _
    exact exited_le_entered (h.take k)
  · intro h
    induction ls using List.reverseRecOn with
    | nil => intro k indent hk; cases hk
    | append_singleton ls l ih =>
      have hls : Proper ls := by
        apply ih
        intro k hk
        have hle := h k (by rw [List.length_append]; omega)
        rwa [List.take_append_of_le_length hk] at hle
      refine proper_concat.2 ⟨hls, ?_⟩
      rintro ⟨indent, rfl⟩
      have hle := h _ (Nat.le_refl _)
      rw [List.take_length, exited_concat, entered_concat] at hle
      rw [openers_ne_nil_iff hls]
      simp [exited, entered] at hle ⊢
      omega

/-! ## Counting declarations and releases -/

/-- Whether an act declares `name`. -/
def Act.binds (name : String) : Act → Bool
  | .bind _ n _ => n == name
  | .unbind _ => false

/-- Whether an act releases `name`. -/
def Act.unbinds (name : String) : Act → Bool
  | .bind _ _ _ => false
  | .unbind n => n == name

/-- More acts declare `name` than release it. -/
def Surplus (name : String) (acts : List Act) : Prop :=
  acts.countP (Act.unbinds name) < acts.countP (Act.binds name)

/-- In front of each release its name is declared more often than released. -/
def Matched (acts : List Act) : Prop :=
  ∀ before name, before ++ [.unbind name] <+: acts → Surplus name before

theorem matched_nil : Matched [] := by
  intro before name h
  simpa using List.prefix_nil.1 h

theorem Matched.of_append {acts more : List Act} (h : Matched (acts ++ more)) : Matched acts :=
  fun before name hp => h before name (hp.trans (List.prefix_append _ _))

theorem matched_concat_unbind {acts : List Act} {name : String} :
    Matched (acts ++ [.unbind name]) ↔ Matched acts ∧ Surplus name acts := by
  constructor
  · intro h
    exact ⟨h.of_append, h acts name List.prefix_rfl⟩
  · rintro ⟨h, hname⟩ before n hp
    rcases List.prefix_concat_iff.1 hp with heq | hp
    · obtain ⟨rfl, hlast⟩ := List.append_inj' heq rfl
      cases hlast
      exact hname
    · exact h before n hp

theorem matched_concat_bind {acts : List Act} {ref : Ref} {name tag : String} :
    Matched (acts ++ [.bind ref name tag]) ↔ Matched acts := by
  constructor
  · intro h
    exact h.of_append
  · intro h before n hp
    rcases List.prefix_concat_iff.1 hp with heq | hp
    · have hlast := (List.append_inj' heq rfl).2
      cases hlast
    · exact h before n hp

/-- **The declarations that stand** are those left over when each release takes one away. -/
theorem length_standing {acts : List Act} (h : Matched acts) (name : String) :
    (standing name acts).length + acts.countP (Act.unbinds name) =
      acts.countP (Act.binds name) := by
  induction acts using List.reverseRecOn with
  | nil => rfl
  | append_singleton acts a ih =>
    have hcount := ih h.of_append
    rw [standing_concat, List.countP_append, List.countP_append]
    cases a with
    | bind ref n tag =>
      by_cases hn : n = name
      · simp [Act.match, Act.binds, Act.unbinds, hn]
        omega
      · simpa [Act.match, Act.binds, Act.unbinds, hn] using hcount
    | unbind n =>
      by_cases hn : n = name
      · subst hn
        have hlt : Surplus n acts := (matched_concat_unbind.1 h).2
        unfold Surplus at hlt
        simp [Act.match, Act.binds, Act.unbinds]
        omega
      · simpa [Act.match, Act.binds, Act.unbinds, hn] using hcount

theorem standing_ne_nil_iff {acts : List Act} (h : Matched acts) (name : String) :
    standing name acts ≠ [] ↔ Surplus name acts := by
  have hcount := length_standing h name
  rw [← List.length_pos_iff, Surplus]
  omega

theorem matched_append_bindActs {acts : List Act} {ref : Ref} {items : List ListItem} :
    Matched (acts ++ bindActs ref items) ↔ Matched acts := by
  induction items generalizing acts ref with
  | nil => rw [bindActs, List.append_nil]
  | cons item items ih => rw [bindActs, List.append_cons, ih, matched_concat_bind]

/-- Names can be released one after the other if each release is matched. -/
theorem releasable_iff_matched {acts : List Act} (h : Matched acts) {names : List String} :
    Releasable acts names ↔ Matched (acts ++ names.map .unbind) := by
  induction names generalizing acts with
  | nil =>
    rw [List.map_nil, List.append_nil]
    exact iff_of_true trivial h
  | cons name names ih =>
    have hsplit : acts ++ (name :: names).map Act.unbind =
        acts ++ [.unbind name] ++ names.map .unbind := by simp
    rw [Releasable, standing_ne_nil_iff h, hsplit]
    constructor
    · rintro ⟨hname, hrest⟩
      exact (ih (matched_concat_unbind.2 ⟨h, hname⟩)).1 hrest
    · intro hm
      have hfirst := hm.of_append
      exact ⟨(matched_concat_unbind.1 hfirst).2, (ih hfirst).2 hm⟩

theorem matched_append_unbinds_iff {acts : List Act} {names : List String} :
    Matched (acts ++ names.map .unbind) ↔ Matched acts ∧ ∀ front name rest,
      names = front ++ name :: rest → Surplus name (acts ++ front.map .unbind) := by
  constructor
  · intro h
    refine ⟨h.of_append, ?_⟩
    rintro front name rest rfl
    refine h _ name ⟨rest.map .unbind, ?_⟩
    simp
  · rintro ⟨h, hnames⟩
    induction names using List.reverseRecOn with
    | nil => simpa using h
    | append_singleton names name ih =>
      rw [List.map_append, ← List.append_assoc]
      refine matched_concat_unbind.2 ⟨ih fun front n rest hn => ?_, hnames names name [] rfl⟩
      exact hnames front n (rest ++ [name]) (by simp [hn])

/-! ## The conditions -/

/-- The lines of a document that is accepted. -/
structure Acceptable (settings : Settings) (lines : List String) : Prop where
  /-- Every list can be read. -/
  readable : ∀ line ∈ lines, ∃ l, Line.ofString line = .ok l
  /-- No prefix closes more blocks than it opens, -/
  nested : ∀ k ≤ lines.length,
    exited (outline (lines.take k)) ≤ entered (outline (lines.take k))
  /-- and the whole document closes as many as it opens. -/
  closed : exited (outline lines) = entered (outline lines)
  /-- In front of a line that declares or releases names a block is open. -/
  enclosed : ∀ n line l, lines[n]? = some line → Line.ofString line = .ok l →
    ((∃ indent items, l = .declare indent items) ∨ ∃ indent names, l = .release indent names) →
    exited (outline (lines.take n)) < entered (outline (lines.take n))
  /-- In front of a name that is released it is declared more often than released, directly in the
  innermost block. -/
  released : ∀ n line indent names, lines[n]? = some line →
    Line.ofString line = .ok (.release indent names) →
    ∀ b, innermost? (outline (lines.take n)) = some b →
    ∀ front name rest, names = front ++ name :: rest →
      Surplus name (history (outline (lines.take n)) b ++ front.map .unbind)
  /-- Where types are demanded, each declared name has one. -/
  typed : settings.demandTypes = true → ∀ line ∈ lines, ∀ indent items,
    Line.ofString line = .ok (.declare indent items) → ∀ item ∈ items, item.tag?.isSome = true

theorem undeclarable?_eq_none_iff {settings : Settings} {items : List ListItem} :
    Draft.undeclarable? settings items = none ↔
      (settings.demandTypes = true → ∀ item ∈ items, item.tag?.isSome = true) := by
  unfold Draft.undeclarable?
  cases settings.demandTypes with
  | false => simp
  | true => simp [Option.isSome_iff_ne_none]

theorem Line.ofString_of_read {line : String} {l : Line} (h : Line.read line = l)
    (hl : l ≠ .plain) : Line.ofString line = .ok l := by
  unfold Line.read at h
  cases hof : Line.ofString line with
  | error e =>
    rw [hof] at h
    exact absurd h.symm hl
  | ok l' =>
    rw [hof] at h
    exact congrArg Except.ok h

section
variable {settings : Settings} {lines : List String}

/-- The acts on a block are matched if those of each line are, after the lines in front of it. -/
theorem matched_history
    (h : ∀ n line indent names, lines[n]? = some line →
      Line.ofString line = .ok (.release indent names) →
      ∀ b, innermost? (outline (lines.take n)) = some b →
        Matched (history (outline (lines.take n)) b) →
        Matched (history (outline (lines.take n)) b ++ names.map .unbind)) (n b : Nat) :
    Matched (history (outline (lines.take n)) b) := by
  induction n with
  | zero => exact matched_nil
  | succ n ih =>
    rcases Nat.lt_or_ge n lines.length with hlt | hge
    · have hget : lines[n]? = some lines[n] := List.getElem?_eq_getElem hlt
      have hout : outline (lines.take (n + 1)) =
          outline (lines.take n) ++ [Line.read lines[n]] := by
        rw [List.take_succ_eq_append_getElem hlt, outline_append]
        rfl
      rw [hout, history_concat]
      split
      · next hi =>
        cases hl : Line.read lines[n] with
        | declare indent items => exact matched_append_bindActs.2 ih
        | release indent names =>
          have hof := Line.ofString_of_read hl (by simp)
          exact h n _ indent names hget hof b hi ih
        | enter indent => simpa [Line.acts] using ih
        | leave indent => simpa [Line.acts] using ih
        | plain => simpa [Line.acts] using ih
      · rwa [List.append_nil]
    · rw [List.take_of_length_le (by omega)]
      rwa [List.take_of_length_le hge] at ih

theorem acceptable_of_admits (ho : openers (outline lines) = [])
    (h : ∀ n line, lines[n]? = some line → Admits settings ((outline lines).take n) line) :
    Acceptable settings lines := by
  have hproper := proper_of_ofLines (Plan.exists_ofLines_iff.2 ⟨ho, h⟩)
  have hadmitted : ∀ n line l, lines[n]? = some line → Line.ofString line = .ok l →
      l.Admitted settings (outline (lines.take n)) := by
    intro n line l hn hl
    obtain ⟨l', hl', hadm⟩ := h n line hn
    rw [hl, Except.ok.injEq] at hl'
    rw [outline_take, hl']
    exact hadm
  have hmatched := matched_history fun n line indent names hn hl b hi hm => by
    obtain ⟨c, hc, hnames⟩ := hadmitted n line _ hn hl
    rw [hi, Option.some.injEq] at hc
    subst hc
    exact (releasable_iff_matched hm).1 hnames
  refine { readable := ?_, nested := ?_, closed := ?_, enclosed := ?_, released := ?_, typed := ?_ }
  · intro line hline
    obtain ⟨n, hn⟩ := List.mem_iff_getElem?.1 hline
    obtain ⟨l, hl, -⟩ := h n line hn
    exact ⟨l, hl⟩
  · intro k _
    rw [outline_take]
    exact exited_le_entered (hproper.take k)
  · have hcount := length_openers hproper
    rw [ho, List.length_nil] at hcount
    omega
  · intro n line l hn hl hlist
    have hadm := hadmitted n line l hn hl
    have hopen : innermost? (outline (lines.take n)) ≠ none := by
      rcases hlist with ⟨indent, items, rfl⟩ | ⟨indent, names, rfl⟩
      · exact hadm.1
      · obtain ⟨b, hb, -⟩ := hadm
        rw [hb]
        simp
    rw [outline_take] at hopen ⊢
    apply (openers_ne_nil_iff (hproper.take n)).1
    intro hnil
    exact hopen (List.head?_eq_none_iff.2 hnil)
  · intro n line indent names hn hl b hi
    obtain ⟨c, hc, hnames⟩ := hadmitted n line _ hn hl
    rw [hi, Option.some.injEq] at hc
    subst hc
    have hall := (releasable_iff_matched (hmatched n b)).1 hnames
    exact (matched_append_unbinds_iff.1 hall).2
  · intro hs line hline indent items hl
    obtain ⟨n, hn⟩ := List.mem_iff_getElem?.1 hline
    exact undeclarable?_eq_none_iff.1 (hadmitted n line _ hn hl).2 hs

theorem Acceptable.proper (h : Acceptable settings lines) : Proper (outline lines) := by
  apply proper_iff.2
  intro k hk
  rw [length_outline] at hk
  rw [← outline_take]
  exact h.nested k hk

theorem Acceptable.openers_eq_nil (h : Acceptable settings lines) :
    openers (outline lines) = [] := by
  have hcount := length_openers h.proper
  have hclosed := h.closed
  exact List.length_eq_zero_iff.1 (by omega)

theorem Acceptable.innermost?_ne_none (h : Acceptable settings lines) {n : Nat}
    (hlt : exited (outline (lines.take n)) < entered (outline (lines.take n))) :
    innermost? ((outline lines).take n) ≠ none := by
  rw [outline_take, ← openers_ne_nil_iff (h.proper.take n)] at hlt
  intro hi
  exact hlt (List.head?_eq_none_iff.1 hi)

theorem Acceptable.admits (h : Acceptable settings lines) {n : Nat} {line : String}
    (hn : lines[n]? = some line) : Admits settings ((outline lines).take n) line := by
  obtain ⟨l, hl⟩ := h.readable line (List.mem_of_getElem? hn)
  refine ⟨l, hl, ?_⟩
  cases l with
  | enter indent => exact trivial
  | leave indent =>
    have hread := getElem?_outline hn
    rw [Line.read_of_ofString hl] at hread
    intro hi
    exact h.proper n indent hread (List.head?_eq_none_iff.1 hi)
  | declare indent items =>
    refine ⟨h.innermost?_ne_none (h.enclosed n line _ hn hl (.inl ⟨indent, items, rfl⟩)), ?_⟩
    apply undeclarable?_eq_none_iff.2
    intro hs
    exact h.typed hs line (List.mem_of_getElem? hn) indent items hl
  | release indent names =>
    have hopen := h.innermost?_ne_none (h.enclosed n line _ hn hl (.inr ⟨indent, names, rfl⟩))
    obtain ⟨b, hi⟩ := Option.ne_none_iff_exists'.1 hopen
    refine ⟨b, hi, ?_⟩
    rw [← outline_take] at hi ⊢
    have hm := matched_history (fun n line indent names hn hl b hi hm =>
      matched_append_unbinds_iff.2 ⟨hm, h.released n line indent names hn hl b hi⟩) n b
    apply (releasable_iff_matched hm).2
    exact matched_append_unbinds_iff.2 ⟨hm, h.released n line indent names hn hl b hi⟩
  | plain => exact trivial

end

/-- **When a document is accepted.** -/
theorem Plan.ofText_ok_iff_acceptable {settings : Settings} {text : String} :
    (∃ p, Plan.ofText settings text = .ok p) ↔ Acceptable settings (Text.lines text) := by
  rw [ofText, exists_ofLines_iff]
  constructor
  · rintro ⟨ho, h⟩
    exact acceptable_of_admits ho h
  · intro h
    exact ⟨h.openers_eq_nil, fun n line hn => h.admits hn⟩

end BlockSlots
