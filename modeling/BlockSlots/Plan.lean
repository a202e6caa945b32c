import BlockSlots.Dialect
import BlockSlots.Draft
import BlockSlots.Text.Lines

/-! # Plans

A plan holds what is to be written for a whole document. It does not depend on the target language:
a dialect turns it into text, one line for each line of the document.
-/

set_option autoImplicit false

namespace BlockSlots

open Text

/-- What is to be written for a document. -/
structure Plan where
  ledger : Ledger := {}
  script : Script := {}
deriving DecidableEq, Repr

/-- The text of an entry. -/
def Entry.written (g : Dialect) (ledger : Ledger) (e : Entry) : String :=
  e.indent ++
    match e.content with
    | .marked mark refs => g.text mark (refs.filterMap (ledger.shown? mark))
    | .plain line uses =>
      substitute (fun name => ((uses.get? name).bind ledger.binding?).map g.use) line

/-- Ends a document after its last line. Every block must be closed; of several open blocks the
outermost is at fault. -/
def Draft.finish (settings : Settings) (lines : List String) (d : Draft) : Except LineFault Plan :=
  match d.nest.outermost? with
  | some o => .error ⟨.unbalanced .unclosed, o.line, lines[o.line]?.getD ""⟩
  | none =>
    .ok ⟨d.ledger, if settings.hideUnused then d.script.keepUsed d.ledger else d.script⟩

namespace Plan

/-- The plan of a document given by its lines. -/
def ofLines (settings : Settings) (lines : List String) : Except LineFault Plan := do
  let draft ← lines.foldlM (Draft.addLine settings) {}
  draft.finish settings lines

/-- The plan of a document. -/
def ofText (settings : Settings) (text : String) : Except LineFault Plan :=
  ofLines settings (lines text)

/-- The lines that a dialect writes. -/
def writtenLines (g : Dialect) (p : Plan) : List String :=
  p.script.entries.toList.map (Entry.written g p.ledger)

/-- The text that a dialect writes. -/
def written (g : Dialect) (separator : String) (p : Plan) : String :=
  separator.intercalate (p.writtenLines g)

end Plan

end BlockSlots
