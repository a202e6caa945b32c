import BlockSlots.Fault
import BlockSlots.Line.Reader
import BlockSlots.Nest
import BlockSlots.Script
import BlockSlots.Settings

/-! # Drafts

A draft is what is known of a document after some of its lines: the bindings declared so far, the
open blocks and the entries of the lines. Each further line adds one entry, or is refused: first of
all for a list that cannot be read, then for standing outside of all blocks, then for the leftmost
item of its list that cannot be declared or released. Lines are counted apart from their entries.

* `entry_of_take`: every line adds one entry.
* `lineCount_of_addLine`: every line is counted once.
-/

set_option autoImplicit false

namespace BlockSlots

open Text

/-- What is known of a document after some of its lines. -/
structure Draft where
  ledger : Ledger := {}
  nest : Nest := {}
  script : Script := {}
  /-- How many lines were read, which is the number of the next one. -/
  lineCount : Nat := 0
deriving DecidableEq, Repr

namespace Draft

/-- Binds names one after the other. -/
def bindAll (ledger : Ledger) (block : Block) (items : List ListItem) : Ledger × Block :=
  items.foldl (fun s item => s.2.bind s.1 item.name item.tag) (ledger, block)

/-- Releases names one after the other, up to the first that is not bound. -/
def unbindAll (block : Block) : List String → Except Unbound (List Ref × Block)
  | [] => .ok ([], block)
  | name :: names => do
    let (r, block) ← block.unbind name
    let (refs, block) ← unbindAll block names
    .ok (r :: refs, block)

/-- The bindings that the names of a line stand for. Outside of all blocks there are none. -/
def usesIn (nest : Nest) (line : String) : Uses :=
  .ofList ((names line).filterMap fun name =>
    (nest.current?.bind (·.visible? name)).map (name, ·))

/-- The first item that cannot be declared: one without a type, if the settings demand types. -/
def undeclarable? (settings : Settings) (items : List ListItem) : Option ListItem :=
  if settings.demandTypes then items.find? (·.tag?.isNone) else none

/-- Opens a block. Its entry stays empty until the block is closed. -/
def enter (d : Draft) (indent : String) : Draft :=
  { d with
    nest := d.nest.push d.script.size d.lineCount
    script := d.script.push ⟨indent, .marked .enter []⟩ }

/-- Closes the innermost block and fills in the entry that opened it. -/
def leave (d : Draft) (indent : String) : Except Cause Draft :=
  match d.nest.pop? with
  | none => .error (.unbalanced .unopened)
  | some (closed, nest) =>
    let refs := closed.block.refs
    .ok { d with
      nest, script := (d.script.fill closed.entry refs).push ⟨indent, .marked .leave refs⟩ }

/-- Declares names in the innermost block. -/
def declare (settings : Settings) (d : Draft) (indent : String) (items : List ListItem) :
    Except Cause Draft :=
  match d.nest.current? with
  | none => .error (.unbalanced .declareOutside)
  | some block =>
    match undeclarable? settings items with
    | some item => .error (.untyped item.name)
    | none =>
      let (ledger, block) := bindAll d.ledger block items
      let refs := List.range' d.ledger.size items.length
      .ok { d with ledger, nest := d.nest.setCurrent block,
                   script := d.script.push ⟨indent, .marked .declare refs⟩ }

/-- Releases names in the innermost block. -/
def release (d : Draft) (indent : String) (names : List String) : Except Cause Draft :=
  match d.nest.current? with
  | none => .error (.unbalanced .releaseOutside)
  | some block =>
    match unbindAll block names with
    | .error e => .error (.unbound e)
    | .ok (refs, block) =>
      .ok { d with nest := d.nest.setCurrent block,
                   script := d.script.push ⟨indent, .marked .release refs⟩ }

/-- Adds a plain line and notes the use of the bindings it refers to. -/
def plain (d : Draft) (line : String) : Draft :=
  let uses := usesIn d.nest line
  { d with ledger := uses.values.foldl Ledger.noteUse d.ledger,
           script := d.script.push ⟨"", .plain line uses⟩ }

/-- The draft with one more line, or what is wrong with the line. -/
def take (settings : Settings) (d : Draft) (line : String) : Except Cause Draft :=
  match Line.ofString line with
  | .error e => .error (.list e)
  | .ok (.enter indent) => .ok (d.enter indent)
  | .ok (.leave indent) => d.leave indent
  | .ok (.declare indent items) => d.declare settings indent items
  | .ok (.release indent names) => d.release indent names
  | .ok .plain => .ok (d.plain line)

/-- Counts a line. -/
def next (d : Draft) : Draft := { d with lineCount := d.lineCount + 1 }

/-- The draft with one more line, which is counted. A line that is refused is reported with its
number and its text. -/
def addLine (settings : Settings) (d : Draft) (line : String) : Except LineFault Draft :=
  ((d.take settings line).map next).mapError fun cause => ⟨cause, d.lineCount, line⟩

/-! ## Entries and lines -/

/-- A line that is taken adds an entry. It is not counted yet. -/
theorem entry_of_take {settings : Settings} {d d' : Draft} {line : String}
    (h : d.take settings line = .ok d') :
    d'.script.size = d.script.size + 1 ∧ d'.lineCount = d.lineCount := by
  unfold take at h
  split at h
  · cases h
  · cases h
    exact ⟨by simp [enter], rfl⟩
  · unfold leave at h
    split at h <;> cases h
    exact ⟨by simp, rfl⟩
  · unfold declare at h
    split at h
    · cases h
    · split at h <;> cases h
      exact ⟨by simp, rfl⟩
  · unfold release at h
    split at h
    · cases h
    · split at h <;> cases h
      exact ⟨by simp, rfl⟩
  · cases h
    exact ⟨by simp [plain], rfl⟩

theorem lineCount_of_addLine {settings : Settings} {d d' : Draft} {line : String}
    (h : d.addLine settings line = .ok d') : d'.lineCount = d.lineCount + 1 := by
  unfold addLine at h
  cases ht : d.take settings line with
  | error e => rw [ht] at h; cases h
  | ok d₁ => rw [ht] at h; cases h; exact congrArg (· + 1) (entry_of_take ht).2

end Draft

end BlockSlots
