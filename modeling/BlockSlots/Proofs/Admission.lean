import BlockSlots.Proofs.Tracks

/-!
# Which documents are accepted

A document is accepted if each of its lines is, after the lines in front of it, and no block is left
open (`Plan.exists_ofLines_iff`). Whether a line is accepted depends on two things only: whether a
block is open, and, for a release, which names stand for something in the innermost one.

* `exists_unbindAll_iff`: names can be released one after the other if each of them then stands for
  something.
* `exists_step_iff`: a draft takes a line if the line is admitted after the lines of the draft.
-/

set_option autoImplicit false

namespace BlockSlots

open Text

/-- Each name stands for something after `acts` and the releases of the names in front of it. -/
def Releasable (acts : List Act) : List String → Prop
  | [] => True
  | name :: names => standing name acts ≠ [] ∧ Releasable (acts ++ [.unbind name]) names

/-- A line with the given reading is accepted after the lines `ls`. -/
def Line.Admitted (settings : Settings) (ls : List Line) : Line → Prop
  | .enter _ => True
  | .leave _ => innermost? ls ≠ none
  | .declare _ items => innermost? ls ≠ none ∧ Draft.undeclarable? settings items = none
  | .release _ names => ∃ b, innermost? ls = some b ∧ Releasable (history ls b) names
  | .plain => True

/-- A line can be read and is accepted after the lines `ls`. -/
def Admits (settings : Settings) (ls : List Line) (line : String) : Prop :=
  ∃ l, Line.ofString line = .ok l ∧ l.Admitted settings ls

theorem Block.exists_unbind_iff {b : Block} {name : String} :
    (∃ r, b.unbind name = .ok (r, b.act (.unbind name))) ↔ b.bound name ≠ [] := by
  have hvis := visible?_eq_head?_bound b name
  cases hu : b.unbind name with
  | error e =>
    rw [(unbind_eq_error_iff.1 hu).1] at hvis
    have hnil : b.bound name = [] := List.head?_eq_none_iff.1 hvis.symm
    rw [hnil]
    exact ⟨fun ⟨_, h⟩ => (by cases h), fun h => absurd rfl h⟩
  | ok p =>
    obtain ⟨r, next⟩ := p
    obtain ⟨rfl, hr⟩ := unbind_eq_ok hu
    rw [hr] at hvis
    refine ⟨fun _ hnil => ?_, fun _ => ⟨r, rfl⟩⟩
    rw [hnil] at hvis
    cases hvis

namespace Draft

theorem exists_unbindAll_iff (id : Nat) {acts : List Act} {names : List String} :
    (∃ p, unbindAll (.ofActs id acts) names = .ok p) ↔ Releasable acts names := by
  induction names generalizing acts with
  | nil => exact ⟨fun _ => trivial, fun _ => ⟨_, rfl⟩⟩
  | cons name names ih =>
    have hbound := Block.bound_ofActs id acts name
    rw [Releasable, ← ih, ← hbound, ← Block.exists_unbind_iff, Block.ofActs_concat, unbindAll]
    cases hu : (Block.ofActs id acts).unbind name with
    | error e =>
      refine ⟨fun h => ?_, fun h => ?_⟩
      · obtain ⟨p, h⟩ := h
        cases h
      · obtain ⟨⟨r, h⟩, -⟩ := h
        cases h
    | ok q =>
      obtain ⟨r, next⟩ := q
      obtain ⟨rfl, -⟩ := Block.unbind_eq_ok hu
      simp only [bind, Except.bind]
      cases hrest : unbindAll ((Block.ofActs id acts).act (.unbind name)) names with
      | error e =>
        refine ⟨fun hx => ?_, fun hx => ?_⟩
        · obtain ⟨p, h⟩ := hx
          cases h
        · obtain ⟨-, p, h⟩ := hx
          cases h
      | ok p => exact ⟨fun _ => ⟨⟨r, rfl⟩, p, rfl⟩, fun _ => ⟨_, rfl⟩⟩

variable {settings : Settings} {lines : List String} {line : String} {d : Draft}

theorem Tracks.exists_inner_iff (ht : Tracks lines d) :
    (∃ o outer, d.nest.inner = o :: outer) ↔ innermost? (outline lines) ≠ none := by
  rw [ht.inner, innermost?]
  cases openers (outline lines) with
  | nil => simp
  | cons b outer => simp

/-- **A draft takes a line** if the line is admitted after the lines of the draft. -/
theorem Tracks.exists_step_iff (ht : Tracks lines d) {l : Line} :
    (∃ d', Step settings d line l d') ↔ l.Admitted settings (outline lines) := by
  cases l with
  | enter indent => exact ⟨fun _ => trivial, fun _ => ⟨_, .enter indent⟩⟩
  | leave indent =>
    rw [Line.Admitted, ← ht.exists_inner_iff]
    refine ⟨fun h => ?_, fun h => ?_⟩
    · obtain ⟨d', hs⟩ := h
      cases hs with
      | leave _ ho => exact ⟨_, _, ho⟩
    · obtain ⟨o, outer, ho⟩ := h
      exact ⟨_, .leave indent ho⟩
  | declare indent items =>
    rw [Line.Admitted, ← ht.exists_inner_iff]
    refine ⟨fun hx => ?_, fun hx => ?_⟩
    · obtain ⟨d', hs⟩ := hx
      cases hs with
      | declare _ ho hitems => exact ⟨⟨_, _, ho⟩, hitems⟩
    · obtain ⟨⟨o, outer, ho⟩, hitems⟩ := hx
      exact ⟨_, .declare indent ho hitems⟩
  | release indent names =>
    rw [Line.Admitted]
    refine ⟨fun hx => ?_, fun hx => ?_⟩
    · obtain ⟨d', hs⟩ := hx
      cases hs with
      | release _ ho hnames =>
        obtain ⟨b, hb, rfl⟩ := ht.innermost?_of_inner ho
        exact ⟨b, hb, (exists_unbindAll_iff _).1 ⟨_, hnames⟩⟩
    · obtain ⟨b, hi, hnames⟩ := hx
      obtain ⟨outer, ho⟩ := List.head?_eq_some_iff.1 hi
      have hinner := ht.inner
      rw [ho] at hinner
      obtain ⟨⟨refs, block⟩, hu⟩ :=
        (exists_unbindAll_iff (entered ((outline lines).take b))).2 hnames
      exact ⟨_, .release indent hinner hu⟩
  | plain => exact ⟨fun _ => trivial, fun _ => ⟨_, .plain⟩⟩

theorem exists_ofLines_iff : (∃ d, ofLines settings lines = .ok d) ↔
    ∀ k line, lines[k]? = some line → Admits settings ((outline lines).take k) line := by
  induction lines using List.reverseRecOn with
  | nil => exact ⟨fun _ k line h => (by cases h), fun _ => ⟨_, rfl⟩⟩
  | append_singleton lines line ih =>
    have hlen : (outline lines).length = lines.length := length_outline lines
    rw [outline_append]
    refine ⟨fun hx => ?_, fun h => ?_⟩
    · obtain ⟨d', h⟩ := hx
      intro k text hk
      obtain ⟨d, d₁, hd, htake, -⟩ := ofLines_concat_eq_ok h
      rcases getElem?_concat_cases hk with ⟨hlt, hk⟩ | ⟨rfl, rfl⟩
      · rw [List.take_append_of_le_length (by omega)]
        exact ih.1 ⟨d, hd⟩ k text hk
      · obtain ⟨l, hl, hs⟩ := take_eq_ok_iff.1 htake
        rw [List.take_left' hlen]
        exact ⟨l, hl, (tracks_ofLines hd).exists_step_iff.1 ⟨d₁, hs⟩⟩
    · obtain ⟨d, hd⟩ := ih.2 fun k text hk => by
        have hlt := (List.getElem?_eq_some_iff.1 hk).1
        have hadmits := h k text (by rw [List.getElem?_append_left hlt, hk])
        rwa [List.take_append_of_le_length (by omega)] at hadmits
      obtain ⟨l, hl, hadmitted⟩ := h lines.length line List.getElem?_concat_length
      rw [List.take_left' hlen] at hadmitted
      obtain ⟨d', hs⟩ := (tracks_ofLines hd).exists_step_iff.2 hadmitted
      refine ⟨d'.next, ?_⟩
      rw [ofLines_concat, hd]
      exact addLine_eq_ok_iff.2 ⟨d', take_eq_ok_iff.2 ⟨l, hl, hs⟩, rfl⟩

end Draft

/-- **Which documents are accepted.** -/
theorem Plan.exists_ofLines_iff {settings : Settings} {lines : List String} :
    (∃ p, Plan.ofLines settings lines = .ok p) ↔ openers (outline lines) = [] ∧
      ∀ k line, lines[k]? = some line → Admits settings ((outline lines).take k) line := by
  rw [← Draft.exists_ofLines_iff]
  refine ⟨fun h => ?_, fun h => ?_⟩
  · obtain ⟨p, h⟩ := h
    obtain ⟨d, hd, hi, -⟩ := Plan.ofLines_eq_ok_iff.1 h
    rw [(Draft.tracks_ofLines hd).inner, List.map_eq_nil_iff] at hi
    exact ⟨hi, d, hd⟩
  · obtain ⟨ho, d, hd⟩ := h
    have hi := (Draft.tracks_ofLines hd).inner
    rw [ho, List.map_nil] at hi
    exact ⟨_, Plan.ofLines_eq_ok_iff.2 ⟨d, hd, hi, rfl⟩⟩

end BlockSlots
