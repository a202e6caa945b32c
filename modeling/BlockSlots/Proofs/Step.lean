import BlockSlots.Plan
import BlockSlots.Proofs.History

/-!
# One line of a document

What one more line does to a draft (`Draft.Step`), and what the lists of declarations and releases
do to the innermost block, in terms of the acts on it. Later proofs look at `Step` and not at
`Draft.take`.

* `take_eq_ok_iff`: a line is taken exactly by the step for its reading.
* `bindAll_block`, `get?_bindAll_of_isPrefix`: a declaration acts on the block item by item, and
  adds a record for each item with the slot it got.
* `unbindAll_eq_ok`: so does a release, which lists the bindings it released.
-/

set_option autoImplicit false

namespace BlockSlots

open Text

namespace Block

/-- The bindings that releases of names, one after the other, are matched with. -/
def released (b : Block) : List String → List Ref
  | [] => []
  | name :: names => (b.visible? name).toList ++ (b.act (.unbind name)).released names

end Block

namespace Draft

/-! ## Lists -/

theorem bindAll_cons (ledger : Ledger) (block : Block) (item : ListItem) (items : List ListItem) :
    bindAll ledger block (item :: items) =
      bindAll (block.bind ledger item.name item.tag).1 (block.bind ledger item.name item.tag).2
        items := rfl

theorem bindAll_block (ledger : Ledger) (block : Block) (items : List ListItem) :
    (bindAll ledger block items).2 = (bindActs ledger.size items).foldl Block.act block := by
  induction items generalizing ledger block with
  | nil => rfl
  | cons item items ih =>
    rw [bindAll_cons, ih, bindActs, List.foldl_cons, Block.bind, Ledger.size_push]
    rfl

theorem size_bindAll (ledger : Ledger) (block : Block) (items : List ListItem) :
    (bindAll ledger block items).1.size = ledger.size + items.length := by
  induction items generalizing ledger block with
  | nil => rfl
  | cons item items ih =>
    rw [bindAll_cons, ih, Block.bind, Ledger.size_push, List.length_cons]
    omega

theorem get?_bindAll_of_lt {ledger : Ledger} {r : Ref} (h : r < ledger.size) (block : Block)
    (items : List ListItem) : (bindAll ledger block items).1.get? r = ledger.get? r := by
  induction items generalizing ledger block with
  | nil => rfl
  | cons item items ih =>
    rw [bindAll_cons, ih, Block.bind, Ledger.get?_push_of_lt h]
    rw [Block.bind, Ledger.size_push]
    exact Nat.lt_succ_of_lt h

/-- The record that a declaration makes for an item has the slot that was the next one then. -/
theorem get?_bindAll_of_isPrefix {ledger : Ledger} {block : Block} {items : List ListItem}
    {before : List Act} {r : Ref} {name tag : String}
    (h : before ++ [.bind r name tag] <+: bindActs ledger.size items) :
    (bindAll ledger block items).1.get? r =
      some ⟨⟨name, tag, (before.foldl Block.act block).nextSlot tag, false⟩, block.id⟩ := by
  induction items generalizing ledger block before with
  | nil =>
    have hnil := List.prefix_nil.1 h
    simp at hnil
  | cons item items ih =>
    rw [bindActs] at h
    rw [bindAll_cons]
    cases before with
    | nil =>
      have hfirst := (List.cons_prefix_cons.1 h).1
      rw [Act.bind.injEq] at hfirst
      obtain ⟨rfl, rfl, rfl⟩ := hfirst
      rw [get?_bindAll_of_lt]
      · exact Ledger.get?_push_size ..
      · rw [Block.bind, Ledger.size_push]
        exact Nat.lt_succ_self _
    | cons a before =>
      obtain ⟨rfl, hrest⟩ := List.cons_prefix_cons.1 h
      have hid : (block.bind ledger item.name item.tag).2.id = block.id :=
        Block.id_act block (.bind ledger.size item.name item.tag)
      rw [ih (by rwa [Block.bind, Ledger.size_push]), hid]
      rfl

theorem unbindAll_eq_ok {block block' : Block} {names : List String} {refs : List Ref}
    (h : unbindAll block names = .ok (refs, block')) :
    refs = block.released names ∧ block' = (names.map Act.unbind).foldl Block.act block := by
  induction names generalizing block refs with
  | nil => cases h; exact ⟨rfl, rfl⟩
  | cons name names ih =>
    unfold unbindAll at h
    cases hu : block.unbind name with
    | error e => rw [hu] at h; cases h
    | ok p =>
      obtain ⟨r, next⟩ := p
      rw [hu] at h
      cases hrest : unbindAll next names with
      | error e =>
        simp only [bind, Except.bind, hrest] at h
        cases h
      | ok q =>
        simp only [bind, Except.bind, hrest, Except.ok.injEq, Prod.mk.injEq] at h
        obtain ⟨rfl, rfl⟩ := h
        obtain ⟨hnext, hvis⟩ := Block.unbind_eq_ok hu
        obtain ⟨hrefs, hblock⟩ := ih hrest
        subst hnext
        refine ⟨?_, hblock⟩
        rw [Block.released, hvis, hrefs]
        rfl

/-! ## Steps -/

/-- What a line that reads as `l` makes of a draft. -/
inductive Step (settings : Settings) (d : Draft) (line : String) : Line → Draft → Prop
  | enter (indent : String) : Step settings d line (.enter indent) (d.enter indent)
  | leave (indent : String) {closed : OpenBlock} {outer : List OpenBlock}
      (h : d.nest.inner = closed :: outer) :
      Step settings d line (.leave indent)
        { d with
          nest := { d.nest with inner := outer }
          script := (d.script.fill closed.entry closed.block.refs).push
            ⟨indent, .marked .leave closed.block.refs⟩ }
  | declare (indent : String) {items : List ListItem} {o : OpenBlock} {outer : List OpenBlock}
      (h : d.nest.inner = o :: outer) (hitems : undeclarable? settings items = none) :
      Step settings d line (.declare indent items)
        { d with
          ledger := (bindAll d.ledger o.block items).1
          nest := d.nest.setCurrent (bindAll d.ledger o.block items).2
          script := d.script.push
            ⟨indent, .marked .declare (List.range' d.ledger.size items.length)⟩ }
  | release (indent : String) {names : List String} {o : OpenBlock} {outer : List OpenBlock}
      {refs : List Ref} {block : Block} (h : d.nest.inner = o :: outer)
      (hnames : unbindAll o.block names = .ok (refs, block)) :
      Step settings d line (.release indent names)
        { d with
          nest := d.nest.setCurrent block
          script := d.script.push ⟨indent, .marked .release refs⟩ }
  | plain : Step settings d line .plain (d.plain line)

theorem current?_eq_some {n : Nest} {block : Block} (h : n.current? = some block) :
    ∃ o outer, n.inner = o :: outer ∧ o.block = block := by
  unfold Nest.current? at h
  obtain ⟨o, ho, rfl⟩ := Option.map_eq_some_iff.1 h
  obtain ⟨outer, ho⟩ := List.head?_eq_some_iff.1 ho
  exact ⟨o, outer, ho, rfl⟩

theorem current?_of_inner {n : Nest} {o : OpenBlock} {outer : List OpenBlock}
    (h : n.inner = o :: outer) : n.current? = some o.block := by
  rw [Nest.current?, h]
  rfl

/-- **A line is taken exactly by the step for its reading.** -/
theorem take_eq_ok_iff {settings : Settings} {d d' : Draft} {line : String} :
    d.take settings line = .ok d' ↔
      ∃ l, Line.ofString line = .ok l ∧ Step settings d line l d' := by
  refine ⟨fun h => ?_, fun h => ?_⟩
  · unfold take at h
    split at h
    · cases h
    · next indent hl => cases h; exact ⟨_, hl, .enter indent⟩
    · next indent hl =>
      unfold leave Nest.pop? at h
      refine ⟨_, hl, ?_⟩
      cases hi : d.nest.inner with
      | nil => rw [hi] at h; cases h
      | cons closed outer => rw [hi] at h; cases h; exact .leave indent hi
    · next indent items hl =>
      unfold declare at h
      refine ⟨_, hl, ?_⟩
      split at h
      · cases h
      · next block hc =>
        obtain ⟨o, outer, hi, rfl⟩ := current?_eq_some hc
        split at h
        · cases h
        · next hu => cases h; exact .declare indent hi hu
    · next indent names hl =>
      unfold release at h
      refine ⟨_, hl, ?_⟩
      split at h
      · cases h
      · next block hc =>
        obtain ⟨o, outer, hi, rfl⟩ := current?_eq_some hc
        split at h
        · cases h
        · next refs block' hu => cases h; exact .release indent hi hu
    · next hl => cases h; exact ⟨_, hl, .plain⟩
  · obtain ⟨l, hl, hstep⟩ := h
    unfold take
    cases hstep with
    | enter indent => rw [hl]
    | leave indent h =>
      rw [hl]
      simp only [leave, Nest.pop?, h]
    | declare indent h hitems =>
      rw [hl]
      simp only [declare, current?_of_inner h, hitems]
    | release indent h hnames =>
      rw [hl]
      simp only [release, current?_of_inner h, hnames]
    | plain => rw [hl]

/-- A line that is taken is counted. -/
theorem addLine_eq_ok_iff {settings : Settings} {d d' : Draft} {line : String} :
    d.addLine settings line = .ok d' ↔ ∃ d₁, d.take settings line = .ok d₁ ∧ d' = d₁.next := by
  unfold addLine
  cases d.take settings line with
  | error e => simp [Except.map, Except.mapError]
  | ok d₁ => simp [Except.map, Except.mapError, eq_comm]

/-! ## All lines -/

/-- The draft of a document given by its lines. -/
def ofLines (settings : Settings) (lines : List String) : Except LineFault Draft :=
  lines.foldlM (addLine settings) {}

theorem ofLines_concat (settings : Settings) (lines : List String) (line : String) :
    ofLines settings (lines ++ [line]) =
      (ofLines settings lines).bind fun d => d.addLine settings line := by
  rw [ofLines, List.foldlM_append]
  refine congrArg _ (funext fun d => ?_)
  simp [List.foldlM]

theorem ofLines_concat_eq_ok {settings : Settings} {lines : List String} {line : String}
    {d' : Draft} (h : ofLines settings (lines ++ [line]) = .ok d') :
    ∃ d d₁, ofLines settings lines = .ok d ∧ d.take settings line = .ok d₁ ∧ d' = d₁.next := by
  rw [ofLines_concat] at h
  cases hd : ofLines settings lines with
  | error e => rw [hd] at h; cases h
  | ok d =>
    rw [hd] at h
    obtain ⟨d₁, htake, rfl⟩ := addLine_eq_ok_iff.1 h
    exact ⟨d, d₁, rfl, htake, rfl⟩

end Draft

theorem Plan.ofLines_eq_bind (settings : Settings) (lines : List String) :
    Plan.ofLines settings lines =
      (Draft.ofLines settings lines).bind (Draft.finish settings lines) := rfl

/-- A document is accepted if all its lines are and no block is left open. -/
theorem Plan.ofLines_eq_ok_iff {settings : Settings} {lines : List String} {p : Plan} :
    Plan.ofLines settings lines = .ok p ↔
      ∃ d, Draft.ofLines settings lines = .ok d ∧ d.nest.inner = [] ∧
        p = ⟨d.ledger, if settings.hideUnused then d.script.keepUsed d.ledger else d.script⟩ := by
  rw [ofLines_eq_bind]
  cases Draft.ofLines settings lines with
  | error e => exact ⟨fun h => (by cases h), fun ⟨d, hd, _⟩ => (by cases hd)⟩
  | ok d =>
    have hfin : (Except.ok d : Except LineFault Draft).bind (Draft.finish settings lines) =
      d.finish settings lines := rfl
    rw [hfin, Draft.finish, Nest.outermost?]
    cases hi : d.nest.inner with
    | nil =>
      refine ⟨fun h => ?_, fun hx => ?_⟩
      · cases h
        exact ⟨d, rfl, hi, rfl⟩
      · obtain ⟨d₁, hd, -, rfl⟩ := hx
        cases hd
        rfl
    | cons o outer =>
      refine ⟨fun h => ?_, fun hx => ?_⟩
      · rw [List.getLast?_cons] at h
        cases h
      · obtain ⟨d₁, hd, hi₁, -⟩ := hx
        cases hd
        rw [hi] at hi₁
        cases hi₁

end BlockSlots
