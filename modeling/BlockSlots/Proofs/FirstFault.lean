import BlockSlots.Proofs.Acceptance

/-!
# The first fault of a document

A document that is refused is refused for its first line that cannot be taken, whatever follows; or,
if every line can be taken, for the outermost of the blocks that are left open.

* `Refused`: what is wrong with a line, told from the lines in front of it: its list, then the
  blocks, then the leftmost entry of the list that fails.
* `take_eq_error_iff`: a draft that tracks its lines refuses a line for just that cause.
* `Draft.ofLines_eq_error_iff`: lines are refused for the first of them that is.
* `mem_openers_iff`: the blocks left open are those whose first line is closed by no line.
* `first_fault`: what the fault of a document says.
-/

set_option autoImplicit false

namespace BlockSlots

open Text

/-! ## What is wrong with a line -/

/-- What is wrong with a line that stands after the lines `ls`. -/
inductive Refused (settings : Settings) (ls : List Line) (line : String) : Cause → Prop
  /-- Its list cannot be read. -/
  | list {fault : ListFault} (hl : Line.ofString line = .error fault) :
      Refused settings ls line (.list fault)
  /-- It closes a block, and none is open. -/
  | leave {indent : String} (hl : Line.ofString line = .ok (.leave indent))
      (ho : innermost? ls = none) : Refused settings ls line (.unbalanced .unopened)
  /-- It declares names, and no block is open. -/
  | declare {indent : String} {items : List ListItem}
      (hl : Line.ofString line = .ok (.declare indent items)) (ho : innermost? ls = none) :
      Refused settings ls line (.unbalanced .declareOutside)
  /-- It releases names, and no block is open. -/
  | release {indent : String} {names : List String}
      (hl : Line.ofString line = .ok (.release indent names)) (ho : innermost? ls = none) :
      Refused settings ls line (.unbalanced .releaseOutside)
  /-- In a block, an item has no type where types are demanded; those on its left have one. -/
  | untyped {indent : String} {front rest : List ListItem} {item : ListItem} {b : Nat}
      (hl : Line.ofString line = .ok (.declare indent (front ++ item :: rest)))
      (hi : innermost? ls = some b) (hs : settings.demandTypes = true)
      (hfront : ∀ i ∈ front, i.tag?.isSome = true) (hitem : item.tag? = none) :
      Refused settings ls line (.untyped item.name)
  /-- In a block, a name to be released stands for nothing; those on its left did. -/
  | unbound {indent : String} {front rest : List String} {name : String} {b : Nat}
      (hl : Line.ofString line = .ok (.release indent (front ++ name :: rest)))
      (hi : innermost? ls = some b) (hfront : Releasable (history ls b) front)
      (hname : standing name (history ls b ++ front.map .unbind) = []) :
      Refused settings ls line (.unbound ⟨name⟩)

theorem Refused.cause_ne {settings : Settings} {ls : List Line} {line : String} {cause : Cause}
    (h : Refused settings ls line cause) : cause ≠ .unbalanced .unclosed := by
  cases h <;> simp

namespace Draft

theorem undeclarable?_eq_some_iff {settings : Settings} {items : List ListItem} {item : ListItem} :
    undeclarable? settings items = some item ↔ settings.demandTypes = true ∧ item.tag? = none ∧
      ∃ front rest, items = front ++ item :: rest ∧ ∀ i ∈ front, i.tag?.isSome = true := by
  unfold undeclarable?
  cases settings.demandTypes with
  | false => simp
  | true => simp [List.find?_eq_some_iff_append, Option.isSome_iff_ne_none]

/-- The first name to be released stands for nothing, or a later one is at fault after its
release. -/
theorem unbindAll_cons_eq_error_iff (id : Nat) {acts : List Act} {name : String}
    {names : List String} {e : Unbound} :
    unbindAll (.ofActs id acts) (name :: names) = .error e ↔
      standing name acts = [] ∧ e = ⟨name⟩ ∨
      standing name acts ≠ [] ∧
        unbindAll (.ofActs id (acts ++ [.unbind name])) names = .error e := by
  have hvisible := Block.visible?_ofActs id acts name
  rw [unbindAll]
  cases hu : (Block.ofActs id acts).unbind name with
  | error e' =>
    obtain ⟨hnone, rfl⟩ := Block.unbind_eq_error_iff.1 hu
    rw [hvisible, List.head?_eq_none_iff] at hnone
    show Except.error ⟨name⟩ = Except.error e ↔ _
    simp [hnone, eq_comm]
  | ok p =>
    obtain ⟨r, next⟩ := p
    obtain ⟨rfl, hr⟩ := Block.unbind_eq_ok hu
    rw [hvisible] at hr
    have hne : standing name acts ≠ [] := by
      intro hnil
      rw [hnil] at hr
      cases hr
    rw [Block.ofActs_concat]
    simp only [bind, Except.bind]
    cases unbindAll ((Block.ofActs id acts).act (.unbind name)) names with
    | error e' => simp [hne]
    | ok q => simp [hne]

theorem unbindAll_eq_error_iff (id : Nat) {acts : List Act} {names : List String} {e : Unbound} :
    unbindAll (.ofActs id acts) names = .error e ↔ ∃ front name rest,
      names = front ++ name :: rest ∧ Releasable acts front ∧
        standing name (acts ++ front.map .unbind) = [] ∧ e = ⟨name⟩ := by
  induction names generalizing acts with
  | nil => simp [unbindAll]
  | cons n names ih =>
    rw [unbindAll_cons_eq_error_iff, ih]
    constructor
    · rintro (⟨hnone, rfl⟩ | ⟨hne, front, name, rest, rfl, hfront, hname, rfl⟩)
      · exact ⟨[], n, names, rfl, trivial, by simpa using hnone, rfl⟩
      · exact ⟨n :: front, name, rest, rfl, ⟨hne, hfront⟩, by simpa using hname, rfl⟩
    · rintro ⟨front, name, rest, hsplit, hfront, hname, rfl⟩
      cases front with
      | nil =>
        cases hsplit
        exact .inl ⟨by simpa using hname, rfl⟩
      | cons m front =>
        cases hsplit
        exact .inr ⟨hfront.1, front, name, rest, rfl, hfront.2, by simpa using hname, rfl⟩

variable {settings : Settings} {lines : List String} {line : String} {d : Draft} {cause : Cause}

theorem Tracks.leave_eq_error_iff (ht : Tracks lines d) {indent : String} :
    d.leave indent = .error cause ↔
      innermost? (outline lines) = none ∧ cause = .unbalanced .unopened := by
  have hinner := ht.inner
  unfold leave Nest.pop? innermost?
  cases ho : openers (outline lines) with
  | nil =>
    rw [ho, List.map_nil] at hinner
    rw [hinner]
    simp [eq_comm]
  | cons b outer =>
    rw [ho, List.map_cons] at hinner
    rw [hinner]
    simp

theorem Tracks.declare_eq_error_iff (ht : Tracks lines d) {indent : String}
    {items : List ListItem} : d.declare settings indent items = .error cause ↔
      (innermost? (outline lines) = none ∧ cause = .unbalanced .declareOutside) ∨
      ∃ b item, innermost? (outline lines) = some b ∧ undeclarable? settings items = some item ∧
        cause = .untyped item.name := by
  unfold declare
  rw [ht.current]
  cases innermost? (outline lines) with
  | none => simp [eq_comm]
  | some b =>
    rw [Option.map_some]
    cases undeclarable? settings items with
    | none => simp
    | some item => simp [eq_comm]

theorem Tracks.release_eq_error_iff (ht : Tracks lines d) {indent : String}
    {names : List String} : d.release indent names = .error cause ↔
      (innermost? (outline lines) = none ∧ cause = .unbalanced .releaseOutside) ∨
      ∃ b e, innermost? (outline lines) = some b ∧
        unbindAll (blockAt (outline lines) b) names = .error e ∧ cause = .unbound e := by
  unfold release
  rw [ht.current]
  cases innermost? (outline lines) with
  | none => simp [eq_comm]
  | some b =>
    rw [Option.map_some]
    cases hu : unbindAll (blockAt (outline lines) b) names with
    | error e => simp [hu, eq_comm]
    | ok p => simp [hu]

/-- **A line is refused** for what is wrong with it after the lines of the draft. -/
theorem Tracks.take_eq_error_iff (ht : Tracks lines d) :
    d.take settings line = .error cause ↔ Refused settings (outline lines) line cause := by
  constructor
  · intro h
    cases hl : Line.ofString line with
    | error fault =>
      simp only [take, hl, Except.error.injEq] at h
      exact h ▸ .list hl
    | ok l =>
      cases l with
      | enter indent => simp only [take, hl] at h; cases h
      | leave indent =>
        simp only [take, hl] at h
        obtain ⟨ho, rfl⟩ := ht.leave_eq_error_iff.1 h
        exact .leave hl ho
      | declare indent items =>
        simp only [take, hl] at h
        rcases ht.declare_eq_error_iff.1 h with ⟨ho, rfl⟩ | ⟨b, item, hi, hitem, rfl⟩
        · exact .declare hl ho
        · obtain ⟨hs, hnone, front, rest, rfl, hfront⟩ := undeclarable?_eq_some_iff.1 hitem
          exact .untyped hl hi hs hfront hnone
      | release indent names =>
        simp only [take, hl] at h
        rcases ht.release_eq_error_iff.1 h with ⟨ho, rfl⟩ | ⟨b, e, hi, he, rfl⟩
        · exact .release hl ho
        · obtain ⟨front, name, rest, rfl, hfront, hname, rfl⟩ := (unbindAll_eq_error_iff _).1 he
          exact .unbound hl hi hfront hname
      | plain => simp only [take, hl] at h; cases h
  · intro h
    cases h with
    | list hl => simp only [take, hl]
    | leave hl ho =>
      simp only [take, hl]
      exact ht.leave_eq_error_iff.2 ⟨ho, rfl⟩
    | declare hl ho =>
      simp only [take, hl]
      exact ht.declare_eq_error_iff.2 (.inl ⟨ho, rfl⟩)
    | release hl ho =>
      simp only [take, hl]
      exact ht.release_eq_error_iff.2 (.inl ⟨ho, rfl⟩)
    | untyped hl hi hs hfront hitem =>
      simp only [take, hl]
      refine ht.declare_eq_error_iff.2 (.inr ⟨_, _, hi, ?_, rfl⟩)
      exact undeclarable?_eq_some_iff.2 ⟨hs, hitem, _, _, rfl, hfront⟩
    | unbound hl hi hfront hname =>
      simp only [take, hl]
      refine ht.release_eq_error_iff.2 (.inr ⟨_, _, hi, ?_, rfl⟩)
      exact (unbindAll_eq_error_iff _).2 ⟨_, _, _, rfl, hfront, hname, rfl⟩

/-! ## What is wrong with a document -/

theorem addLine_eq_error_iff {e : LineFault} : d.addLine settings line = .error e ↔
    d.take settings line = .error e.cause ∧ e.line = d.lineCount ∧ e.text = line := by
  obtain ⟨cause, n, text⟩ := e
  unfold addLine
  cases d.take settings line with
  | error c => simp [Except.map, Except.mapError, eq_comm]
  | ok d' => simp [Except.map, Except.mapError]

/-- **Lines are refused for the first one that is refused** after the lines in front of it. -/
theorem ofLines_eq_error_iff {e : LineFault} : ofLines settings lines = .error e ↔
    ∃ d, lines[e.line]? = some e.text ∧ ofLines settings (lines.take e.line) = .ok d ∧
      d.take settings e.text = .error e.cause := by
  induction lines using List.reverseRecOn with
  | nil =>
    constructor
    · intro h
      cases h
    · rintro ⟨d, h, -⟩
      cases h
  | append_singleton lines line ih =>
    rw [ofLines_concat]
    cases hd : ofLines settings lines with
    | error e' =>
      constructor
      · intro h
        cases h
        obtain ⟨d, hget, hpre, htake⟩ := ih.1 hd
        have hlt := (List.getElem?_eq_some_iff.1 hget).1
        refine ⟨d, ?_, ?_, htake⟩
        · rwa [List.getElem?_append_left hlt]
        · rwa [List.take_append_of_le_length (Nat.le_of_lt hlt)]
      · rintro ⟨d, hget, hpre, htake⟩
        rcases getElem?_concat_cases hget with ⟨hlt, hget⟩ | ⟨heq, -⟩
        · rw [List.take_append_of_le_length (Nat.le_of_lt hlt)] at hpre
          have he := ih.2 ⟨d, hget, hpre, htake⟩
          rw [hd] at he
          exact he
        · rw [heq, List.take_left, hd] at hpre
          cases hpre
    | ok d =>
      have hlen := (tracks_ofLines hd).number
      constructor
      · intro h
        obtain ⟨htake, hline, htext⟩ := addLine_eq_error_iff.1 h
        rw [hline, htext, hlen, List.take_left]
        exact ⟨d, List.getElem?_concat_length, hd, htext ▸ htake⟩
      · rintro ⟨d', hget, hpre, htake⟩
        rcases getElem?_concat_cases hget with ⟨hlt, hget⟩ | ⟨heq, htext⟩
        · rw [List.take_append_of_le_length (Nat.le_of_lt hlt)] at hpre
          have he := ih.2 ⟨d', hget, hpre, htake⟩
          rw [hd] at he
          cases he
        · rw [heq, List.take_left, hd] at hpre
          cases hpre
          exact addLine_eq_error_iff.2 ⟨htext ▸ htake, by rw [heq, hlen], htext⟩

/-- What follows the line at fault does not matter. -/
theorem ofLines_eq_error_of_take {lines' : List String} {e : LineFault}
    (h : ofLines settings lines = .error e)
    (htake : lines'.take (e.line + 1) = lines.take (e.line + 1)) :
    ofLines settings lines' = .error e := by
  obtain ⟨d, hget, hpre, hfail⟩ := ofLines_eq_error_iff.1 h
  have hlt : e.line < e.line + 1 := Nat.lt_succ_self _
  refine ofLines_eq_error_iff.2 ⟨d, ?_, ?_, hfail⟩
  · rw [← List.getElem?_take_of_lt hlt, htake, List.getElem?_take_of_lt hlt, hget]
  · have hmin : min e.line (e.line + 1) = e.line := by omega
    have htake' := congrArg (List.take e.line) htake
    rw [List.take_take, List.take_take, hmin] at htake'
    rw [htake', hpre]

theorem exists_ofLines_take (h : ofLines settings lines = .ok d) (n : Nat) :
    ∃ d', ofLines settings (lines.take n) = .ok d' := by
  cases hpre : ofLines settings (lines.take n) with
  | ok d' => exact ⟨d', rfl⟩
  | error e =>
    obtain ⟨_, hget, -⟩ := ofLines_eq_error_iff.1 hpre
    have hlt := (List.getElem?_eq_some_iff.1 hget).1
    rw [List.length_take] at hlt
    have hmin : min (e.line + 1) n = e.line + 1 := by omega
    have hfail : ofLines settings lines = .error e := by
      apply ofLines_eq_error_of_take hpre
      rw [List.take_take, hmin]
    rw [h] at hfail
    cases hfail

/-- No line of a draft is refused. -/
theorem not_refused (h : ofLines settings lines = .ok d) {n : Nat} (hn : lines[n]? = some line) :
    ¬ Refused settings (outline (lines.take n)) line cause := by
  intro hrefused
  obtain ⟨d', hpre⟩ := exists_ofLines_take h n
  have hfail := (tracks_ofLines hpre).take_eq_error_iff.2 hrefused
  have herror : ofLines settings lines = .error ⟨cause, n, line⟩ :=
    ofLines_eq_error_iff.2 ⟨d', hn, hpre, hfail⟩
  rw [h] at herror
  cases herror

end Draft

/-! ## Blocks left open -/

/-- Line `b` opens a block that no line closes. -/
def Unclosed (ls : List Line) (b : Nat) : Prop :=
  (∃ indent, ls[b]? = some (.enter indent)) ∧ ∀ e, ¬ Closes ls b e

/-- **The blocks left open** are those whose first line is closed by no line. -/
theorem mem_openers_iff {ls : List Line} {b : Nat} : b ∈ openers ls ↔ Unclosed ls b := by
  constructor
  · intro h
    refine ⟨enter_of_mem_openers h, ?_⟩
    intro e he
    exact not_mem_openers_of_closes he h
  · rintro ⟨⟨indent, hb⟩, hclosed⟩
    by_contra h
    obtain ⟨e, he⟩ := exists_closes hb h
    exact hclosed e he

/-- The outermost block left open is opened first. -/
theorem le_of_getLast?_openers {ls : List Line} {b c : Nat} (h : (openers ls).getLast? = some b)
    (hc : c ∈ openers ls) : b ≤ c := by
  obtain ⟨inner, ho⟩ := List.getLast?_eq_some_iff.1 h
  have hp := pairwise_openers ls
  rw [ho] at hp hc
  rcases List.mem_append.1 hc with hc | hc
  · have hgt := (List.pairwise_append.1 hp).2.2 c hc b List.mem_cons_self
    omega
  · exact Nat.le_of_eq (List.mem_singleton.1 hc).symm

/-! ## The fault of a document -/

namespace Plan

variable {settings : Settings} {lines : List String} {e : LineFault}

/-- A document is refused for one of its lines, or for the outermost block left open. -/
theorem ofLines_eq_error_iff : ofLines settings lines = .error e ↔
    Draft.ofLines settings lines = .error e ∨
      (∃ d, Draft.ofLines settings lines = .ok d) ∧
        (openers (outline lines)).getLast? = some e.line ∧ lines[e.line]? = some e.text ∧
        e.cause = .unbalanced .unclosed := by
  rw [ofLines_eq_bind]
  cases hd : Draft.ofLines settings lines with
  | error e' => simp [Except.bind]
  | ok d =>
    have hout : d.nest.outermost? =
        (openers (outline lines)).getLast?.map (openBlock (outline lines)) := by
      rw [Nest.outermost?, (Draft.tracks_ofLines hd).inner, List.getLast?_map]
    show d.finish settings lines = _ ↔ _
    unfold Draft.finish
    rw [hout]
    cases ho : (openers (outline lines)).getLast? with
    | none => simp
    | some b =>
      have hlt := lt_of_mem_openers (List.mem_of_getLast? ho)
      rw [length_outline] at hlt
      obtain ⟨cause, n, text⟩ := e
      simp only [Option.map_some, openBlock, List.getElem?_eq_getElem hlt, Option.getD_some]
      constructor
      · intro h
        cases h
        exact .inr ⟨⟨d, rfl⟩, rfl, List.getElem?_eq_getElem hlt, rfl⟩
      · rintro (h | ⟨-, hb, htext, rfl⟩)
        · cases h
        · cases hb
          rw [List.getElem?_eq_getElem hlt] at htext
          cases htext
          rfl

/-- **The fault of a document.** It is that of a line with its text. Either the line itself is
refused: then so is every text that starts with the same lines, the lines in front of it can at most
have a block left open, and what is wrong with the line after these lines is just the cause. Or no
line is refused: then it is the first one that opens a block that is left open. -/
theorem first_fault {text : String} (h : ofText settings text = .error e) :
    (Text.lines text)[e.line]? = some e.text ∧
    (e.cause ≠ .unbalanced .unclosed →
      (∀ text', (Text.lines text').take (e.line + 1) = (Text.lines text).take (e.line + 1) →
        ofText settings text' = .error e) ∧
      (0 < e.line → ∃ front, Text.lines front = (Text.lines text).take e.line) ∧
      (∀ front, Text.lines front = (Text.lines text).take e.line →
        (∃ p, ofText settings front = .ok p) ∨
          ∃ e', ofText settings front = .error e' ∧ e'.cause = .unbalanced .unclosed) ∧
      ∀ cause, Refused settings (outline ((Text.lines text).take e.line)) e.text cause ↔
        cause = e.cause) ∧
    (e.cause = .unbalanced .unclosed →
      (∀ n line, (Text.lines text)[n]? = some line →
        ∀ cause, ¬ Refused settings (outline ((Text.lines text).take n)) line cause) ∧
      Unclosed (outline (Text.lines text)) e.line ∧
      ∀ b, Unclosed (outline (Text.lines text)) b → e.line ≤ b) := by
  rcases ofLines_eq_error_iff.1 h with hrun | ⟨⟨d, hrun⟩, ho, htext, hcause⟩
  · obtain ⟨d, htext, hpre, htake⟩ := Draft.ofLines_eq_error_iff.1 hrun
    have ht := Draft.tracks_ofLines hpre
    have hrefused := ht.take_eq_error_iff.1 htake
    refine ⟨htext, fun _ => ⟨?_, ?_, ?_, ?_⟩, fun hcause => absurd hcause hrefused.cause_ne⟩
    · intro text' hlines
      exact ofLines_eq_error_iff.2 (.inl (Draft.ofLines_eq_error_of_take hrun hlines))
    · intro hpos
      exact ⟨_, lines_intercalate_take hpos text⟩
    · intro front hfront
      rw [← hfront] at hpre
      cases hplan : ofText settings front with
      | ok p => exact .inl ⟨p, rfl⟩
      | error e' =>
        rcases ofLines_eq_error_iff.1 hplan with hfail | ⟨-, -, -, hcause⟩
        · rw [hpre] at hfail
          cases hfail
        · exact .inr ⟨e', rfl, hcause⟩
    · intro cause
      rw [← ht.take_eq_error_iff, htake, Except.error.injEq, eq_comm]
  · refine ⟨htext, fun hne => absurd hcause hne, fun _ => ⟨?_, ?_, ?_⟩⟩
    · intro n line hn cause
      exact Draft.not_refused hrun hn
    · exact mem_openers_iff.1 (List.mem_of_getLast? ho)
    · intro b hb
      exact le_of_getLast?_openers ho (mem_openers_iff.2 hb)

theorem first_fault_samples :
    (∃ e, ofText {} "~begin\n~def x\n~undef x x\n~end" = .error e ∧ e.line = 2 ∧
      Refused {} (outline ["~begin", "~def x"]) "~undef x x" e.cause) ∧
    ∃ e, ofText {} "~begin\n~end\n~begin\n~begin\n~end" = .error e ∧ e.line = 2 ∧
      Unclosed (outline ["~begin", "~end", "~begin", "~begin", "~end"]) 2 := by
  constructor
  · have h : ofText {} "~begin\n~def x\n~undef x x\n~end" =
        .error ⟨.unbound ⟨"x"⟩, 2, "~undef x x"⟩ := by decide +kernel
    obtain ⟨-, -, -, hrefused⟩ := (first_fault h).2.1 (by decide)
    exact ⟨_, h, rfl, (hrefused _).2 rfl⟩
  · have h : ofText {} "~begin\n~end\n~begin\n~begin\n~end" =
        .error ⟨.unbalanced .unclosed, 2, "~begin"⟩ := by decide +kernel
    obtain ⟨-, hunclosed, -⟩ := (first_fault h).2.2 rfl
    exact ⟨_, h, rfl, hunclosed⟩

end Plan

end BlockSlots
