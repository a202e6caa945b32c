import BlockSlots.Proofs.Step
import Mathlib.Data.List.Infix

/-!
# Blocks that wait

While a block is open, the blocks around it wait. Blocks are opened and closed, and the innermost
one binds and releases names, in any order (`Call`); each call has its answer (`Stage.step`). From
the opening of a block to its closing the blocks around it do not change, whatever is called in
between, though all blocks share one ledger and one count.

* `Stage.step_spec`: what a call can do (`Stage.Step`), from which the rest follows.
* `Stage.rows_isPrefix_run`: the ledger only grows.
* `Stage.opened_eq_range'`: the numbers that the opened blocks get, whatever is called.
* `Nest.Suspends.after`: blocks go on waiting as long as there are more blocks open than these.
* `Stage.suspended_blocks_untouched`: what is left when the block is closed.
* `Stage.calls_of_step`: the lines of a document are such calls.
-/

set_option autoImplicit false

namespace BlockSlots

/-! ## Calls -/

/-- The ledger of a run and its open blocks. -/
structure Stage where
  ledger : Ledger := {}
  nest : Nest := {}
deriving DecidableEq, Repr

/-- What can be asked of the open blocks. -/
inductive Call where
  /-- Opens a block. -/
  | push (entry line : Nat)
  /-- Closes the innermost block. -/
  | pop
  /-- Binds a name in the innermost block. -/
  | bind (name tag : String)
  /-- Releases a name in the innermost block. -/
  | unbind (name : String)
deriving DecidableEq, Repr

/-- What a call returns. -/
inductive Answer where
  /-- The number of the block that was opened. -/
  | opened (id : Nat)
  /-- The block that was closed, with where it was opened. -/
  | closed (o : OpenBlock)
  /-- The record of the new binding. -/
  | bound (r : Ref)
  /-- The record of the binding that was released. -/
  | released (r : Ref)
  /-- The name is not bound. -/
  | unbound (e : Unbound)
  /-- No block is open. -/
  | outside
deriving DecidableEq, Repr

/-- Whether a call opens a block. -/
def Call.opens : Call → Bool
  | .push _ _ => true
  | _ => false

/-- The calls from the opening of a block to its closing, with `mid` in between. -/
def Call.enclose (entry line : Nat) (mid : List Call) : List Call :=
  .push entry line :: (mid ++ [.pop])

/-- The number of the block that an answer tells to be opened. -/
def Answer.opened? : Answer → Option Nat
  | .opened id => some id
  | _ => none

namespace Stage

/-- What a call makes of a stage, and its answer. -/
def step (s : Stage) : Call → Stage × Answer
  | .push entry line => ({ s with nest := s.nest.push entry line }, .opened s.nest.count)
  | .pop =>
    match s.nest.pop? with
    | none => (s, .outside)
    | some (o, nest) => ({ s with nest }, .closed o)
  | .bind name tag =>
    match s.nest.current? with
    | none => (s, .outside)
    | some block =>
      let (ledger, block) := block.bind s.ledger name tag
      ({ ledger, nest := s.nest.setCurrent block }, .bound s.ledger.size)
  | .unbind name =>
    match s.nest.current? with
    | none => (s, .outside)
    | some block =>
      match block.unbind name with
      | .ok (r, block) => ({ s with nest := s.nest.setCurrent block }, .released r)
      | .error e => (s, .unbound e)

/-- The stage after some calls. -/
def run (s : Stage) (calls : List Call) : Stage := calls.foldl (fun s c => (s.step c).1) s

/-- The answers to some calls, in their order. -/
def answers (s : Stage) : List Call → List Answer
  | [] => []
  | c :: calls => (s.step c).2 :: (s.step c).1.answers calls

/-- The numbers of the blocks that some calls open, in their order. -/
def opened (s : Stage) (calls : List Call) : List Nat := (s.answers calls).filterMap Answer.opened?

@[simp] theorem run_nil (s : Stage) : s.run [] = s := rfl

@[simp] theorem run_cons (s : Stage) (c : Call) (calls : List Call) :
    s.run (c :: calls) = (s.step c).1.run calls := rfl

@[simp] theorem run_append (s : Stage) (calls more : List Call) :
    s.run (calls ++ more) = (s.run calls).run more := by
  simp [run]

theorem answers_append (s : Stage) (calls more : List Call) :
    s.answers (calls ++ more) = s.answers calls ++ (s.run calls).answers more := by
  induction calls generalizing s with
  | nil => rfl
  | cons c calls ih => rw [List.cons_append, answers, ih, answers, List.cons_append, run_cons]

end Stage

/-! ## What one call can do -/

/-- What a call can make of a stage, and what it then returns. -/
inductive Stage.Step (s : Stage) : Call → Stage → Answer → Prop
  | push (entry line : Nat) :
      Step s (.push entry line) { s with nest := s.nest.push entry line } (.opened s.nest.count)
  /-- Without an open block only the opening of one does anything. -/
  | outside {c : Call} (h : s.nest.inner = []) (hc : c.opens = false) : Step s c s .outside
  | pop {o : OpenBlock} {outer : List OpenBlock} (h : s.nest.inner = o :: outer) :
      Step s .pop { s with nest := { s.nest with inner := outer } } (.closed o)
  | bind {o : OpenBlock} {outer : List OpenBlock} (h : s.nest.inner = o :: outer)
      (name tag : String) :
      Step s (.bind name tag)
        { ledger := (o.block.bind s.ledger name tag).1
          nest := s.nest.setCurrent (o.block.bind s.ledger name tag).2 }
        (.bound s.ledger.size)
  | unbind {o : OpenBlock} {outer : List OpenBlock} {name : String} {r : Ref} {block : Block}
      (h : s.nest.inner = o :: outer) (hr : o.block.unbind name = .ok (r, block)) :
      Step s (.unbind name) { s with nest := s.nest.setCurrent block } (.released r)
  | unbound {o : OpenBlock} {outer : List OpenBlock} {name : String} {e : Unbound}
      (h : s.nest.inner = o :: outer) (hr : o.block.unbind name = .error e) :
      Step s (.unbind name) s (.unbound e)

/-- **Each call does what it can do.** -/
theorem Stage.step_spec (s : Stage) (c : Call) : s.Step c (s.step c).1 (s.step c).2 := by
  cases hi : s.nest.inner with
  | nil =>
    have hc : s.nest.current? = none := by rw [Nest.current?, hi]; rfl
    cases c with
    | push entry line => exact .push entry line
    | pop => rw [step, Nest.pop?, hi]; exact .outside hi rfl
    | bind name tag => rw [step, hc]; exact .outside hi rfl
    | unbind name => rw [step, hc]; exact .outside hi rfl
  | cons o outer =>
    have hc := Draft.current?_of_inner hi
    cases c with
    | push entry line => exact .push entry line
    | pop => rw [step, Nest.pop?, hi]; exact .pop hi
    | bind name tag => rw [step, hc]; exact .bind hi name tag
    | unbind name =>
      rw [step, hc]
      cases hr : o.block.unbind name with
      | error e => simp only [hr]; exact .unbound hi hr
      | ok p => simp only [hr]; exact .unbind hi hr

namespace Nest

/-- The open blocks after an act of the innermost one. -/
def act (n : Nest) (a : Act) : Nest :=
  { n with inner := n.inner.modifyHead fun o => { o with block := o.block.act a } }

/-- The open blocks after a call that finds `size` records in the ledger. -/
def after (n : Nest) (size : Nat) : Call → Nest
  | .push entry line => n.push entry line
  | .pop => { n with inner := n.inner.tail }
  | .bind name tag => n.act (.bind size name tag)
  | .unbind name => n.act (.unbind name)

theorem act_of_inner {n : Nest} {o : OpenBlock} {outer : List OpenBlock}
    (h : n.inner = o :: outer) (a : Act) : n.act a = n.setCurrent (o.block.act a) := by
  simp [act, setCurrent, h]

theorem setCurrent_of_inner {n : Nest} {o : OpenBlock} {outer : List OpenBlock}
    (h : n.inner = o :: outer) : n.setCurrent o.block = n := by
  rw [setCurrent, h, List.modifyHead_cons, ← h]

end Nest

namespace Stage.Step

variable {s s' : Stage} {c : Call} {a : Answer}

/-- **What one call does to the open blocks.** A call on the innermost block is an act of it, also
when there is none or when the name to be released is not bound. -/
theorem nest_eq (h : s.Step c s' a) : s'.nest = s.nest.after s.ledger.size c := by
  cases h with
  | push entry line => rfl
  | outside hi hc =>
    cases c with
    | push entry line => cases hc
    | pop => rw [Nest.after, hi, List.tail_nil, ← hi]
    | bind name tag => rw [Nest.after, Nest.act, hi, List.modifyHead_nil, ← hi]
    | unbind name => rw [Nest.after, Nest.act, hi, List.modifyHead_nil, ← hi]
  | pop hi => rw [Nest.after, hi, List.tail_cons]
  | bind hi name tag => rw [Nest.after, Nest.act_of_inner hi]; rfl
  | unbind hi hr => rw [Nest.after, Nest.act_of_inner hi, (Block.unbind_eq_ok hr).1]
  | unbound hi hr =>
    rw [Nest.after, Nest.act_of_inner hi, Block.act, hr]
    exact (Nest.setCurrent_of_inner hi).symm

/-- A call that binds a name adds a record, any other call leaves the ledger as it is. -/
theorem rows_isPrefix (h : s.Step c s' a) : s.ledger.rows.toList <+: s'.ledger.rows.toList := by
  cases h with
  | bind hi name tag => simp [Block.bind, Ledger.push]
  | _ => exact List.prefix_rfl

theorem ledger_eq {name : String} (h : s.Step (.unbind name) s' a) : s'.ledger = s.ledger := by
  cases h <;> rfl

theorem opened?_eq (h : s.Step c s' a) :
    a.opened? = if c.opens then some s.nest.count else none := by
  cases h with
  | outside hi hc => rw [hc]; rfl
  | _ => rfl

theorem count_eq (h : s.Step c s' a) :
    s'.nest.count = s.nest.count + if c.opens then 1 else 0 := by
  rw [h.nest_eq]
  cases c <;> rfl

end Stage.Step

/-! ## The ledger and the numbers of the blocks -/

namespace Stage

/-- **The ledger only grows**, and the records that are there stay as they are. -/
theorem rows_isPrefix_run (s : Stage) (calls : List Call) :
    s.ledger.rows.toList <+: (s.run calls).ledger.rows.toList := by
  induction calls generalizing s with
  | nil => exact List.prefix_rfl
  | cons c calls ih => exact (s.step_spec c).rows_isPrefix.trans (ih _)

/-- **Blocks are numbered in the order in which they are opened**, whatever is closed in between,
so no number is given twice. -/
theorem opened_eq_range' (s : Stage) (calls : List Call) :
    s.opened calls = List.range' s.nest.count (calls.countP Call.opens) := by
  induction calls generalizing s with
  | nil => rfl
  | cons c calls ih =>
    have htail := ih (s.step c).1
    rw [opened, (s.step_spec c).count_eq] at htail
    rw [opened, answers, List.filterMap_cons, (s.step_spec c).opened?_eq, List.countP_cons]
    cases hc : c.opens with
    | false => simpa [hc] using htail
    | true => simpa [hc, List.range'_succ] using htail

end Stage

/-! ## Blocks that wait -/

/-- The blocks `outer` wait for a block with a given number that was opened at a given place; in
this block others may be open. -/
def Nest.Suspends (n : Nest) (outer : List OpenBlock) (id entry line : Nat) : Prop :=
  ∃ top block, n.inner = top ++ ⟨block, entry, line⟩ :: outer ∧ block.id = id

namespace Nest.Suspends

variable {n : Nest} {outer : List OpenBlock} {id entry line : Nat}

theorem suffix (h : n.Suspends outer id entry line) : outer <:+ n.inner := by
  obtain ⟨top, block, hi, -⟩ := h
  rw [hi]
  exact (List.suffix_cons _ _).trans (List.suffix_append _ _)

/-- An act changes the innermost block, which is none of those that wait. -/
theorem act (h : n.Suspends outer id entry line) (a : Act) :
    (n.act a).Suspends outer id entry line := by
  obtain ⟨top, block, hi, hid⟩ := h
  cases top with
  | nil => exact ⟨[], block.act a, by simp [Nest.act, hi], by rw [Block.id_act, hid]⟩
  | cons o top =>
    exact ⟨{ o with block := o.block.act a } :: top, block, by simp [Nest.act, hi], hid⟩

/-- **A call leaves the blocks that wait as they are**, unless it closes the block they wait for. -/
theorem after (h : n.Suspends outer id entry line) (size : Nat) (c : Call)
    (hdepth : outer.length < (n.after size c).depth) :
    (n.after size c).Suspends outer id entry line := by
  cases c with
  | push e l =>
    obtain ⟨top, block, hi, hid⟩ := h
    exact ⟨⟨{ id := n.count }, e, l⟩ :: top, block, by simp [Nest.after, Nest.push, hi], hid⟩
  | pop =>
    obtain ⟨top, block, hi, hid⟩ := h
    cases top with
    | nil =>
      -- the block they wait for would be closed, and as many be left as wait
      simp [Nest.after, Nest.depth, hi] at hdepth
    | cons o top => exact ⟨top, block, by simp [Nest.after, hi], hid⟩
  | bind name tag => exact h.act _
  | unbind name => exact h.act _

/-- The call that leaves no more blocks open than those that wait closes the block they wait for. -/
theorem pop?_eq (h : n.Suspends outer id entry line)
    (hdepth : (n.after 0 .pop).depth = outer.length) :
    ∃ block, block.id = id ∧ n.pop? = some (⟨block, entry, line⟩, { n with inner := outer }) := by
  obtain ⟨top, block, hi, hid⟩ := h
  cases top with
  | nil => exact ⟨block, hid, by simp [Nest.pop?, hi]⟩
  | cons o top =>
    simp [Nest.after, Nest.depth, hi] at hdepth
    omega

end Nest.Suspends

namespace Stage

/-- Blocks wait as long as there are more blocks open than these. -/
theorem suspends_run {s : Stage} {outer : List OpenBlock} {id entry line : Nat}
    (h : s.nest.Suspends outer id entry line) (calls : List Call)
    (hdepth : ∀ before, before <+: calls → outer.length < (s.run before).nest.depth) :
    (s.run calls).nest.Suspends outer id entry line := by
  induction calls using List.reverseRecOn with
  | nil => exact h
  | append_singleton calls c ih =>
    have hbefore := ih fun before hp => hdepth before (hp.trans (List.prefix_append _ _))
    have hlast := hdepth _ List.prefix_rfl
    rw [run_append, run_cons, run_nil, (step_spec _ c).nest_eq] at hlast ⊢
    exact hbefore.after _ c hlast

theorem suspends_push (s : Stage) (entry line : Nat) :
    (s.step (.push entry line)).1.nest.Suspends s.nest.inner s.nest.count entry line :=
  ⟨[], { id := s.nest.count }, rfl, rfl⟩

/-- **Blocks that wait are not touched.** Let a block be opened, whatever is open already, and let
anything be called while there are more blocks open than before, up to the call that closes the
block. The blocks around it are as they were, and were so all the time. The closing returns the
block that was opened, with its number and its place. The numbers of the blocks opened meanwhile
follow each other. Between any two of the calls the ledger has only grown. -/
theorem suspended_blocks_untouched (s : Stage) (entry line : Nat) (mid : List Call)
    (habove : ∀ before, before <+: mid →
      s.nest.depth < (s.run (.push entry line :: before)).nest.depth)
    (hmatch : (s.run (Call.enclose entry line mid)).nest.depth = s.nest.depth) :
    (s.run (Call.enclose entry line mid)).nest.inner = s.nest.inner ∧
    (∀ before, before <+: mid →
      s.nest.inner <:+ (s.run (.push entry line :: before)).nest.inner) ∧
    (∃ block between, block.id = s.nest.count ∧ s.answers (Call.enclose entry line mid) =
      .opened s.nest.count :: (between ++ [.closed ⟨block, entry, line⟩])) ∧
    s.opened (Call.enclose entry line mid) =
      List.range' s.nest.count ((Call.enclose entry line mid).countP Call.opens) ∧
    ∀ before more, before ++ more <+: Call.enclose entry line mid →
      (s.run before).ledger.rows.toList <+: (s.run (before ++ more)).ledger.rows.toList := by
  have hsusp : ∀ before, before <+: mid →
      (s.run (.push entry line :: before)).nest.Suspends s.nest.inner s.nest.count entry line :=
    fun before hp => suspends_run (suspends_push s entry line) before fun b hb =>
      habove b (hb.trans hp)
  have hcalls : Call.enclose entry line mid = (.push entry line :: mid) ++ [.pop] := rfl
  -- the last call closes the block that the first one opened
  obtain ⟨block, hid, hpop⟩ : ∃ block, block.id = s.nest.count ∧
      (s.run (.push entry line :: mid)).nest.pop? =
        some (⟨block, entry, line⟩,
          { (s.run (.push entry line :: mid)).nest with inner := s.nest.inner }) := by
    refine (hsusp mid List.prefix_rfl).pop?_eq ?_
    rw [hcalls, run_append, run_cons, run_nil, (step_spec _ _).nest_eq] at hmatch
    exact hmatch
  refine ⟨?_, fun before hp => (hsusp before hp).suffix, ⟨block, ?_⟩, opened_eq_range' s _, ?_⟩
  · rw [hcalls, run_append, run_cons, run_nil, step, hpop]
  · refine ⟨(s.step (.push entry line)).1.answers mid, hid, ?_⟩
    rw [hcalls, answers_append, answers, answers, answers, step, step, hpop]
    rfl
  · intro before more _
    rw [run_append]
    exact rows_isPrefix_run _ more

/-- Two blocks are open, and in the inner one a name is bound; then a block is opened in which a
name is bound again and released, a release fails, and a block inside it comes and goes. -/
theorem suspended_blocks_untouched_sample :
    let s : Stage := ({} : Stage).run [.push 0 0, .push 1 1, .bind "x" "int"]
    let mid : List Call := [.bind "x" "int", .unbind "y", .push 4 4, .bind "z" "int", .pop,
      .unbind "x"]
    (∀ before, before <+: mid →
      s.nest.depth < (s.run (.push 3 3 :: before)).nest.depth) ∧
    (s.run (Call.enclose 3 3 mid)).nest.inner = s.nest.inner ∧
    s.opened (Call.enclose 3 3 mid) = [2, 3] := by
  intro s mid
  have habove : ∀ before, before <+: mid →
      s.nest.depth < (s.run (.push 3 3 :: before)).nest.depth := by
    have h : ∀ before ∈ mid.inits, s.nest.depth < (s.run (.push 3 3 :: before)).nest.depth := by
      decide
    exact fun before hp => h before ((List.mem_inits ..).2 hp)
  obtain ⟨hinner, -, -, hopened, -⟩ := suspended_blocks_untouched s 3 3 mid habove (by decide)
  exact ⟨habove, hinner, hopened⟩

end Stage

/-! ## Lines of a document -/

/-- The calls of a line with the place of its entry and its number. -/
def Line.calls (entry number : Nat) : Line → List Call
  | .enter _ => [.push entry number]
  | .leave _ => [.pop]
  | .declare _ items => items.map fun item => .bind item.name item.tag
  | .release _ names => names.map .unbind
  | .plain => []

namespace Stage

theorem run_bindAll {s : Stage} {o : OpenBlock} {outer : List OpenBlock}
    (h : s.nest.inner = o :: outer) (items : List ListItem) :
    s.run (items.map fun item => .bind item.name item.tag) =
      ⟨(Draft.bindAll s.ledger o.block items).1,
        s.nest.setCurrent (Draft.bindAll s.ledger o.block items).2⟩ := by
  induction items generalizing s o with
  | nil => rw [Draft.bindAll, List.foldl_nil, Nest.setCurrent_of_inner h]; rfl
  | cons item items ih =>
    rw [List.map_cons, run_cons, step, Draft.current?_of_inner h]
    rw [ih (o := { o with block := (o.block.bind s.ledger item.name item.tag).2 })
      (by simp [Nest.setCurrent, h]), Draft.bindAll_cons]
    simp [Nest.setCurrent, h]

/-- A release that fails leaves the block as it is, and so does the act. -/
theorem run_unbinds {s : Stage} {o : OpenBlock} {outer : List OpenBlock}
    (h : s.nest.inner = o :: outer) (names : List String) :
    s.run (names.map .unbind) =
      ⟨s.ledger, s.nest.setCurrent ((names.map Act.unbind).foldl Block.act o.block)⟩ := by
  induction names generalizing s o with
  | nil => rw [List.map_nil, List.map_nil, List.foldl_nil, Nest.setCurrent_of_inner h]; rfl
  | cons name names ih =>
    have hstep := s.step_spec (.unbind name)
    have hnest : (s.step (.unbind name)).1.nest =
        s.nest.setCurrent (o.block.act (.unbind name)) := by
      rw [hstep.nest_eq, Nest.after, Nest.act_of_inner h]
    have hinner : (s.step (.unbind name)).1.nest.inner =
        { o with block := o.block.act (.unbind name) } :: outer := by
      rw [hnest, Nest.setCurrent, h, List.modifyHead_cons]
    rw [List.map_cons, run_cons, ih hinner, hstep.ledger_eq, hnest, List.map_cons, List.foldl_cons]
    simp [Nest.setCurrent, h]

/-- **A line that is not plain does to a draft what its calls do.** -/
theorem calls_of_step {settings : Settings} {d d' : Draft} {line : String} {l : Line}
    (h : Draft.Step settings d line l d') (hl : l ≠ .plain) :
    (⟨d.ledger, d.nest⟩ : Stage).run (l.calls d.script.size d.lineCount) =
      ⟨d'.ledger, d'.nest⟩ := by
  cases h with
  | enter indent => rfl
  | leave indent hi => rw [Line.calls, run_cons, run_nil, step, Nest.pop?, hi]
  | declare indent hi _ => exact run_bindAll hi _
  | release indent hi hnames =>
    rw [Line.calls, run_unbinds hi, (Draft.unbindAll_eq_ok hnames).2]
  | plain => exact absurd rfl hl

end Stage

end BlockSlots
