import BlockSlots.Expand
import BlockSlots.Proofs.Records

/-!
# Hiding unused bindings

What no plain line refers to can be hidden in two places: the plan drops it before text is written,
or the dialect leaves it out of what it is shown. Both come to the same, for any records: also for
slots that were taken again, and for blocks that share a number.

* `filterMap_filter_keeps`: what the plan keeps is what is shown as used.
* `written_keepUsed`: an entry is written the same in either way.
* `hideUnused_eq_usedOnly`: so is a document.
-/

set_option autoImplicit false

namespace BlockSlots

/-- The dialect that leaves out what is not used, and is as `g` otherwise. -/
def Dialect.usedOnly (g : Dialect) : Dialect where
  enter bindings := g.enter (bindings.filter (·.used))
  leave bindings := g.leave (bindings.filter (·.used))
  declare bindings := g.declare (bindings.filter (·.used))
  release bindings := g.release (bindings.filter (·.used))
  use := g.use

theorem Dialect.text_usedOnly (g : Dialect) (mark : Mark) (bindings : List Binding) :
    g.usedOnly.text mark bindings = g.text mark (bindings.filter (·.used)) := by
  cases mark <;> rfl

/-! ## What is written -/

/-- The references that are kept are those whose bindings are shown as used. -/
theorem filterMap_filter_keeps (ledger : Ledger) (mark : Mark) (refs : List Ref) :
    (refs.filter (ledger.keeps mark)).filterMap (ledger.shown? mark) =
      (refs.filterMap (ledger.shown? mark)).filter (·.used) := by
  rw [List.filterMap_filter, List.filter_filterMap]
  refine congrArg (List.filterMap · refs) (funext fun r => ?_)
  rw [Ledger.keeps_eq]
  cases ledger.shown? mark r with
  | none => simp
  | some v => cases hused : v.used <;> simp [Option.filter, hused]

/-- **An entry** is written the same whether the plan or the dialect hides what is not used. -/
theorem Entry.written_keepUsed (g : Dialect) (ledger : Ledger) (e : Entry) :
    (e.keepUsed ledger).written g ledger = e.written g.usedOnly ledger := by
  obtain ⟨indent, content⟩ := e
  cases content with
  | marked mark refs =>
    simp only [keepUsed, written, Dialect.text_usedOnly, filterMap_filter_keeps]
  | plain line uses => rfl

theorem Plan.written_keepUsed (g : Dialect) (separator : String) (ledger : Ledger)
    (script : Script) : Plan.written g separator ⟨ledger, script.keepUsed ledger⟩ =
      Plan.written g.usedOnly separator ⟨ledger, script⟩ := by
  simp only [written, writtenLines, Script.keepUsed, Array.toList_map, List.map_map,
    Function.comp_def, Entry.written_keepUsed]

/-! ## Documents -/

/-- Whether unused bindings are hidden matters only at the end of a document. -/
theorem Plan.ofText_hideUnused (settings : Settings) (text : String) :
    ofText { settings with hideUnused := true } text =
      (ofText { settings with hideUnused := false } text).map fun p =>
        ⟨p.ledger, p.script.keepUsed p.ledger⟩ := by
  have hrun : Draft.ofLines { settings with hideUnused := true } =
      Draft.ofLines { settings with hideUnused := false } := rfl
  rw [ofText, ofText, ofLines_eq_bind, ofLines_eq_bind, hrun]
  cases Draft.ofLines { settings with hideUnused := false } (Text.lines text) with
  | error e => rfl
  | ok d =>
    show d.finish _ _ = (d.finish _ _).map _
    unfold Draft.finish
    cases d.nest.outermost? <;> rfl

/-- **Hiding unused bindings** in the plan is the same as leaving them out of what the dialect is
shown, for any records and references, and for every document, accepted or not. -/
theorem hideUnused_eq_usedOnly (g : Dialect) :
    (∀ (separator : String) (ledger : Ledger) (script : Script),
      Plan.written g separator ⟨ledger, script.keepUsed ledger⟩ =
        Plan.written g.usedOnly separator ⟨ledger, script⟩) ∧
    ∀ (settings : Settings) (text : String),
      expandWith { settings with hideUnused := true } g text =
        expandWith { settings with hideUnused := false } g.usedOnly text := by
  refine ⟨Plan.written_keepUsed g, fun settings text => ?_⟩
  unfold expandWith
  rw [Plan.ofText_hideUnused]
  cases Plan.ofText { settings with hideUnused := false } text with
  | error e => rfl
  | ok p => exact congrArg Except.ok (Plan.written_keepUsed g _ p.ledger p.script)

end BlockSlots
