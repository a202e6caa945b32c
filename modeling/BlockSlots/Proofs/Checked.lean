import BlockSlots.Proofs.Numbering
import BlockSlots.Proofs.Step

/-!
# A run that checks its lookups

References to records, places of entries and numbers of lines are plain numbers. A run looks them up
without asking whether something is there. Here is the run once more with every lookup checked: it
breaks off, with no result at all, where a record is missing, where a line is, or where the entry to
be filled in does not open a block. Besides, it takes from a record what a block otherwise remembers
by itself: the slot of a binding that has a successor, and the type tag of one that is released.

* `Ledger.noteUse?`, `Script.fill?`, `Block.bind?`, `Block.unbind?`: one operation.
* `Draft.take?`, `Draft.addLines?`, `Draft.finish?`: lines. `Plan.ofText?`: all of a document.
* `Plan.written?`: what a dialect writes.
* `Block.Backed`: the condition under which a block finds its records. Then nothing is missing when
  names are bound (`Backed.bindAll?_eq`) or released (`Backed.unbindAll?_eq`).
-/

set_option autoImplicit false

namespace BlockSlots

open Text

/-! ## Single lookups -/

/-- Marks a record as used, which must be there. -/
def Ledger.noteUse? (l : Ledger) (r : Ref) : Option Ledger :=
  if r < l.size then some (l.noteUse r) else none

/-- Fills in the bindings of the entry at a place, which must open a block. -/
def Script.fill? (s : Script) (i : Nat) (refs : List Ref) : Option Script :=
  match s.get? i with
  | some ⟨_, .marked .enter _⟩ => some (s.fill i refs)
  | _ => none

namespace Block

/-- Binds a name. If the slot had a binding before, its record must be there, and the new record is
a copy of it under the new name. -/
def bind? (b : Block) (ledger : Ledger) (name tag : String) : Option (Ledger × Block) :=
  match b.freed.top? tag with
  | some h => (ledger.get? h.ref).map fun row =>
    (ledger.push { row with binding := { row.binding with name, used := false } },
      b.hold ledger.size name tag)
  | none => some (b.bind ledger name tag)

/-- Releases the visible binding of a name. Its record must be there, and says what type tag the
slot is freed for. -/
def unbind? (b : Block) (ledger : Ledger) (name : String) :
    Option (Except Unbound (Ref × Block)) :=
  match b.live.pop? name with
  | some (h, live) => (ledger.get? h.ref).map fun row =>
    .ok (h.ref, { b with live, freed := b.freed.push row.binding.tag h })
  | none => some (.error ⟨name⟩)

end Block

/-! ## Lines -/

namespace Draft

/-- Binds names one after the other, up to the first that cannot be declared. -/
def bindAll? (settings : Settings) (ledger : Ledger) (block : Block) :
    List ListItem → Option (Except Cause (Ledger × Block))
  | [] => some (.ok (ledger, block))
  | item :: items =>
    if settings.demandTypes ∧ item.tag?.isNone then some (.error (.untyped item.name))
    else
      match block.bind? ledger item.name item.tag with
      | some (ledger, block) => bindAll? settings ledger block items
      | none => none

/-- Releases names one after the other, up to the first that is not bound. -/
def unbindAll? (ledger : Ledger) (block : Block) :
    List String → Option (Except Unbound (List Ref × Block))
  | [] => some (.ok ([], block))
  | name :: names =>
    match block.unbind? ledger name with
    | some (.ok (r, block)) =>
      (unbindAll? ledger block names).map (·.map fun out => (r :: out.1, out.2))
    | some (.error e) => some (.error e)
    | none => none

/-- Closes the innermost block and fills in the entry that opened it. -/
def leave? (d : Draft) (indent : String) : Option (Except Cause Draft) :=
  match d.nest.pop? with
  | none => some (.error (.unbalanced .unopened))
  | some (closed, nest) =>
    let refs := closed.block.refs
    (d.script.fill? closed.entry refs).map fun script =>
      .ok { d with nest, script := script.push ⟨indent, .marked .leave refs⟩ }

/-- Declares names in the innermost block. -/
def declare? (settings : Settings) (d : Draft) (indent : String) (items : List ListItem) :
    Option (Except Cause Draft) :=
  match d.nest.current? with
  | none => some (.error (.unbalanced .declareOutside))
  | some block =>
    let refs := List.range' d.ledger.size items.length
    (bindAll? settings d.ledger block items).map (·.map fun out =>
      { d with
        ledger := out.1, nest := d.nest.setCurrent out.2,
        script := d.script.push ⟨indent, .marked .declare refs⟩ })

/-- Releases names in the innermost block. -/
def release? (d : Draft) (indent : String) (names : List String) : Option (Except Cause Draft) :=
  match d.nest.current? with
  | none => some (.error (.unbalanced .releaseOutside))
  | some block =>
    (unbindAll? d.ledger block names).map fun
      | .error e => .error (.unbound e)
      | .ok (refs, block) =>
        .ok { d with nest := d.nest.setCurrent block,
                     script := d.script.push ⟨indent, .marked .release refs⟩ }

/-- Adds a plain line and notes the use of the bindings it refers to. -/
def plain? (d : Draft) (line : String) : Option Draft :=
  let uses := usesIn d.nest line
  (uses.values.foldlM Ledger.noteUse? d.ledger).map fun ledger =>
    { d with ledger, script := d.script.push ⟨"", .plain line uses⟩ }

/-- The draft with one more line, or what is wrong with the line. -/
def take? (settings : Settings) (d : Draft) (line : String) : Option (Except Cause Draft) :=
  match Line.ofString line with
  | .error e => some (.error (.list e))
  | .ok (.enter indent) => some (.ok (d.enter indent))
  | .ok (.leave indent) => d.leave? indent
  | .ok (.declare indent items) => d.declare? settings indent items
  | .ok (.release indent names) => d.release? indent names
  | .ok .plain => (d.plain? line).map .ok

/-- The draft with more lines, up to the first that is refused. -/
def addLines? (settings : Settings) (d : Draft) : List String → Option (Except LineFault Draft)
  | [] => some (.ok d)
  | line :: lines =>
    match d.take? settings line with
    | some (.ok d) => addLines? settings d.next lines
    | some (.error cause) => some (.error ⟨cause, d.lineCount, line⟩)
    | none => none

end Draft

/-! ## Documents -/

/-- Drops the bindings that are not kept where unused ones are hidden. Their records must be
there. -/
def Entry.keepUsed? (ledger : Ledger) (e : Entry) : Option Entry :=
  match e.content with
  | .marked _ refs =>
    if refs.all (· < ledger.size) then some (e.keepUsed ledger) else none
  | .plain .. => some e

/-- Drops from every entry the bindings that are not kept where unused ones are hidden. -/
def Script.keepUsed? (s : Script) (ledger : Ledger) : Option Script :=
  (s.entries.toList.mapM (Entry.keepUsed? ledger)).map fun entries => ⟨entries.toArray⟩

/-- Ends a document after its last line. The line of a block that is left open must be there. -/
def Draft.finish? (settings : Settings) (lines : List String) (d : Draft) :
    Option (Except LineFault Plan) :=
  match d.nest.outermost? with
  | some o => lines[o.line]?.map fun line => .error ⟨.unbalanced .unclosed, o.line, line⟩
  | none =>
    let script? := if settings.hideUnused then d.script.keepUsed? d.ledger else some d.script
    script?.map fun script => .ok ⟨d.ledger, script⟩

/-- The plan of a document. -/
def Plan.ofText? (settings : Settings) (text : String) : Option (Except LineFault Plan) :=
  match Draft.addLines? settings {} (lines text) with
  | some (.ok d) => d.finish? settings (lines text)
  | some (.error fault) => some (.error fault)
  | none => none

/-- The characters of a piece in which a name that is used is replaced. Its record must be there. -/
def Text.Piece.written? (g : Dialect) (ledger : Ledger) (uses : Uses) : Piece → Option (List Char)
  | name text =>
    match uses.get? text with
    | some r => (ledger.binding? r).map fun b => (g.use b).toList
    | none => some text.toList
  | other c => some [c]

/-- The text of an entry. Every binding must be there. -/
def Entry.written? (g : Dialect) (ledger : Ledger) (e : Entry) : Option String :=
  match e.content with
  | .marked mark refs =>
    (refs.mapM (ledger.shown? mark)).map fun shown => e.indent ++ g.text mark shown
  | .plain line uses =>
    ((pieces line.toList).mapM (Piece.written? g ledger uses)).map fun parts =>
      e.indent ++ String.ofList parts.flatten

/-- The text that a dialect writes. -/
def Plan.written? (g : Dialect) (separator : String) (p : Plan) : Option String :=
  (p.script.entries.toList.mapM (Entry.written? g p.ledger)).map separator.intercalate

/-! ## When lookups find something -/

theorem mapM_eq_some_filterMap {α β : Type} {f : α → Option β} {l : List α}
    (h : ∀ a ∈ l, ∃ b, f a = some b) : l.mapM f = some (l.filterMap f) := by
  induction l with
  | nil => rfl
  | cons a l ih =>
    obtain ⟨b, hb⟩ := h a List.mem_cons_self
    rw [List.mapM_cons, hb, ih fun x hx => h x (List.mem_cons_of_mem _ hx),
      List.filterMap_cons_some hb]
    rfl

theorem mapM_eq_some_map {α β : Type} {f : α → Option β} {g : α → β} {l : List α}
    (h : ∀ a ∈ l, f a = some (g a)) : l.mapM f = some (l.map g) := by
  rw [mapM_eq_some_filterMap fun a ha => ⟨g a, h a ha⟩,
    List.filterMap_eq_map_iff_forall_eq_some.2 h]

theorem Ledger.exists_get?_of_lt {l : Ledger} {r : Ref} (h : r < l.size) :
    ∃ row, l.get? r = some row :=
  have hlt : r < l.rows.size := h
  ⟨l.rows[r], Array.getElem?_eq_getElem hlt⟩

theorem Ledger.exists_shown?_of_lt {l : Ledger} {r : Ref} (h : r < l.size) (mark : Mark) :
    ∃ b, l.shown? mark r = some b := by
  obtain ⟨row, hrow⟩ := exists_get?_of_lt h
  cases mark <;> exact ⟨_, by rw [shown?]; simp only [slotBinding?, binding?, hrow]; rfl⟩

theorem Ledger.foldlM_noteUse? {l : Ledger} {refs : List Ref} (h : ∀ r ∈ refs, r < l.size) :
    refs.foldlM noteUse? l = some (refs.foldl noteUse l) := by
  induction refs generalizing l with
  | nil => rfl
  | cons r refs ih =>
    rw [List.foldlM_cons, noteUse?, if_pos (h r List.mem_cons_self)]
    refine ih fun s hs => ?_
    rw [size_noteUse]
    exact h s (List.mem_cons_of_mem _ hs)

theorem Script.fill?_of_enter {s : Script} {i : Nat} {indent : String} {old : List Ref}
    (h : s.get? i = some ⟨indent, .marked .enter old⟩) (refs : List Ref) :
    s.fill? i refs = some (s.fill i refs) := by
  rw [fill?, h]

theorem Draft.undeclarable?_nil (settings : Settings) : undeclarable? settings [] = none := by
  rw [undeclarable?]
  split <;> rfl

theorem Draft.undeclarable?_cons (settings : Settings) (item : ListItem) (items : List ListItem) :
    undeclarable? settings (item :: items) =
      if settings.demandTypes ∧ item.tag?.isNone then some item
      else undeclarable? settings items := by
  rw [undeclarable?, undeclarable?, List.find?_cons]
  by_cases hd : settings.demandTypes = true
  · cases hn : item.tag?.isNone <;> simp [hd]
  · simp [hd]

namespace Block

/-- A block whose slots are numbered, and whose bindings have their records. -/
structure Backed (l : Ledger) (b : Block) : Prop where
  numbered : b.Numbered
  held : ∀ h ∈ b.held, ∃ name used, l.get? h.ref = some ⟨⟨name, h.tag, h.slot, used⟩, b.id⟩

section
variable {l : Ledger} {b : Block}

theorem Backed.bind (h : Backed l b) (name tag : String) :
    Backed (b.bind l name tag).1 (b.bind l name tag).2 := by
  have hid : (b.act (.bind l.size name tag)).id = b.id := id_act b _
  show Backed _ (b.act (.bind l.size name tag))
  refine { numbered := h.numbered.act _, held := fun x hx => ?_ }
  rw [hid]
  rcases mem_held_bind hx with rfl | hx
  · exact ⟨name, false, Ledger.get?_push_size ..⟩
  · obtain ⟨n, used, hrow⟩ := h.held x hx
    refine ⟨n, used, ?_⟩
    rw [Block.bind, Ledger.get?_push_of_lt (Array.getElem?_eq_some_iff.1 hrow).1, hrow]

theorem Backed.unbind (h : Backed l b) (name : String) : Backed l (b.act (.unbind name)) := by
  refine { numbered := h.numbered.act _, held := fun x hx => ?_ }
  rw [id_act]
  exact h.held x ((held_unbind_perm b name).mem_iff.1 hx)

/-- The record of the binding that held the slot before has its type tag, its slot and its block. -/
theorem Backed.bind?_eq (h : Backed l b) (name tag : String) :
    b.bind? l name tag = some (b.bind l name tag) := by
  rw [bind?]
  cases ht : b.freed.top? tag with
  | none => rfl
  | some x =>
    have hx : x ∈ b.freed.stack tag := List.mem_of_mem_head? ht
    obtain ⟨n, used, hrow⟩ := h.held x (List.mem_append_right _ (Stacks.mem_toList_of_mem_stack hx))
    have hnext : b.nextSlot tag = x.slot := by rw [nextSlot, ht]
    dsimp only
    rw [hrow, Option.map_some, Block.bind, hnext, h.numbered.tagged tag x hx]

theorem Backed.unbind?_eq (h : Backed l b) (name : String) :
    b.unbind? l name = some (b.unbind name) := by
  rw [unbind?, Block.unbind]
  cases hp : b.live.pop? name with
  | none => rfl
  | some p =>
    obtain ⟨x, live⟩ := p
    obtain ⟨n, used, hrow⟩ := h.held x (List.mem_append_left _ (Stacks.mem_toList_of_pop? hp))
    dsimp only
    rw [hrow, Option.map_some]

/-- **No record is missing when names are bound.** -/
theorem Backed.bindAll?_eq (h : Backed l b) (settings : Settings) (items : List ListItem) :
    Draft.bindAll? settings l b items =
      some (match Draft.undeclarable? settings items with
        | some item => .error (.untyped item.name)
        | none => .ok (Draft.bindAll l b items)) := by
  induction items generalizing l b with
  | nil =>
    rw [Draft.undeclarable?_nil]
    rfl
  | cons item items ih =>
    rw [Draft.bindAll?, Draft.undeclarable?_cons]
    split
    · rfl
    · rw [h.bind?_eq]
      exact ih (h.bind item.name item.tag)

/-- **No record is missing when names are released.** -/
theorem Backed.unbindAll?_eq (h : Backed l b) (names : List String) :
    Draft.unbindAll? l b names = some (Draft.unbindAll b names) := by
  induction names generalizing b with
  | nil => rfl
  | cons name names ih =>
    rw [Draft.unbindAll?, h.unbind?_eq, Draft.unbindAll]
    cases hu : b.unbind name with
    | error e => rfl
    | ok p =>
      obtain ⟨r, next⟩ := p
      obtain ⟨rfl, -⟩ := unbind_eq_ok hu
      dsimp only
      rw [ih (h.unbind name)]
      simp only [Bind.bind, Except.bind]
      cases Draft.unbindAll (b.act (.unbind name)) names <;> rfl

end

end Block

end BlockSlots
