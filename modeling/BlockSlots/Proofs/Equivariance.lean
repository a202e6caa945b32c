import BlockSlots.Proofs.Respelling
import BlockSlots.Proofs.Tracks

/-!
# Names and type tags have no meaning

A document whose names and type tags are spelled in another way (`Respelling.Says`, line by line)
comes to the same in the other spelling: the same plan or the same fault. A run is respelled step by
step: each operation of a draft commutes with the spelling.

* `Draft.take_respell`: what one more line does.
* `Draft.foldlM_respell`: what all lines do.
* `Plan.ofText_respell`: what the document comes to.
-/

set_option autoImplicit false

namespace BlockSlots

open Text

/-! ## Documents in another spelling -/

/-- The item in the new spelling. -/
def ListItem.respell (σ : Respelling) (item : ListItem) : ListItem :=
  ⟨σ.name item.name, item.tag?.map σ.tag⟩

/-- The directive in the new spelling. -/
def Line.respell (σ : Respelling) : Line → Line
  | .declare indent items => .declare indent (items.map (ListItem.respell σ))
  | .release indent names => .release indent (names.map σ.name)
  | l => l

/-- The line with each of its names in the new spelling. -/
def Respelling.onLine (σ : Respelling) (line : String) : String :=
  substitute (fun name => some (σ.name name)) line

/-- The second line says in the new spelling what the first one says. A directive may be written in
any way; a plain line has its names replaced. -/
def Respelling.Says (σ : Respelling) (line line' : String) : Prop :=
  ∃ l, Line.ofString line = .ok l ∧ Line.ofString line' = .ok (l.respell σ) ∧
    (l = .plain → line' = σ.onLine line)

/-! ## Plans and faults in another spelling -/

section
variable (σ : Respelling)

/-- The record in the new spelling. -/
def Row.respell (row : Row) : Row :=
  { row with binding.name := σ.name row.binding.name, binding.tag := σ.tag row.binding.tag }

/-- The ledger in the new spelling. -/
def Ledger.respell (l : Ledger) : Ledger := ⟨l.rows.map (Row.respell σ)⟩

/-- The content in the new spelling. -/
def Content.respell : Content → Content
  | .marked mark refs => .marked mark refs
  | .plain line uses => .plain (σ.onLine line) (uses.mapKeys σ.name)

/-- The entry in the new spelling. -/
def Entry.respell (e : Entry) : Entry := { e with content := e.content.respell σ }

/-- The script in the new spelling. -/
def Script.respell (s : Script) : Script := ⟨s.entries.map (Entry.respell σ)⟩

/-- The plan in the new spelling: the same records and entries, with other names and type tags. -/
def Plan.respell (p : Plan) : Plan := ⟨p.ledger.respell σ, p.script.respell σ⟩

/-- The cause in the new spelling. -/
def Cause.respell : Cause → Cause
  | .unbound fault => .unbound ⟨σ.name fault.name⟩
  | .untyped name => .untyped (σ.name name)
  | cause => cause

/-- The fault in the new spelling, with the text of its line among other lines. -/
def LineFault.respell (lines : List String) (e : LineFault) : LineFault :=
  ⟨e.cause.respell σ, e.line, lines[e.line]?.getD ""⟩

/-! ## Ledgers -/

theorem Ledger.size_respell (l : Ledger) : (l.respell σ).size = l.size := by
  simp [size, respell]

theorem Ledger.get?_respell (l : Ledger) (r : Ref) :
    (l.respell σ).get? r = (l.get? r).map (Row.respell σ) := by
  simp [get?, respell]

theorem Ledger.push_respell (l : Ledger) (row : Row) :
    (l.respell σ).push (row.respell σ) = (l.push row).respell σ := by
  simp [push, respell]

theorem Ledger.ext_get? {l l' : Ledger} (h : ∀ r, l.get? r = l'.get? r) : l = l' :=
  congrArg Ledger.mk (Array.ext_getElem? h)

theorem Ledger.noteUse_respell (l : Ledger) (r : Ref) :
    (l.respell σ).noteUse r = (l.noteUse r).respell σ := by
  apply ext_get?
  intro s
  rw [get?_noteUse, get?_respell, get?_respell, get?_noteUse, Option.map_map, Option.map_map]
  refine congrArg (Option.map · (l.get? s)) (funext fun row => ?_)
  by_cases h : r = s <;> simp [h, Row.respell]

theorem Ledger.foldl_noteUse_respell (l : Ledger) (refs : List Ref) :
    refs.foldl noteUse (l.respell σ) = (refs.foldl noteUse l).respell σ := by
  induction refs generalizing l with
  | nil => rfl
  | cons r refs ih => rw [List.foldl_cons, List.foldl_cons, noteUse_respell, ih]

theorem Ledger.slotUsed_respell (l : Ledger) (row : Row) :
    (l.respell σ).slotUsed (row.respell σ) = l.slotUsed row := by
  simp only [slotUsed, respell, Array.any_map]
  rfl

/-- What is kept where unused bindings are hidden does not depend on the spelling. -/
theorem Ledger.keeps_respell (l : Ledger) (mark : Mark) (r : Ref) :
    (l.respell σ).keeps mark r = l.keeps mark r := by
  have hslot : ((l.respell σ).get? r).any (l.respell σ).slotUsed =
      (l.get? r).any l.slotUsed := by
    rw [get?_respell]
    cases l.get? r with
    | none => rfl
    | some row => exact slotUsed_respell σ l row
  have hown : ((l.respell σ).binding? r).any (·.used) = (l.binding? r).any (·.used) := by
    rw [binding?, binding?, get?_respell]
    cases l.get? r <;> rfl
  cases mark with
  | enter | leave => exact hslot
  | declare | release => exact hown

/-! ## Lists -/

theorem ListItem.tag_respell (item : ListItem) : (item.respell σ).tag = σ.tag item.tag := by
  obtain ⟨name, tag?⟩ := item
  cases tag? with
  | none => exact σ.tag_empty.symm
  | some tag => rfl

theorem Block.bind_respell (b : Block) (l : Ledger) (name tag : String) :
    (b.respell σ).bind (l.respell σ) (σ.name name) (σ.tag tag) =
      ((b.bind l name tag).1.respell σ, (b.bind l name tag).2.respell σ) := by
  rw [bind, bind, hold_respell, nextSlot_respell, Ledger.size_respell, ← Ledger.push_respell]
  rfl

namespace Draft

theorem bindAll_respell (l : Ledger) (b : Block) (items : List ListItem) :
    bindAll (l.respell σ) (b.respell σ) (items.map (ListItem.respell σ)) =
      ((bindAll l b items).1.respell σ, (bindAll l b items).2.respell σ) := by
  induction items generalizing l b with
  | nil => rfl
  | cons item items ih =>
    have hbind := Block.bind_respell σ b l item.name item.tag
    rw [List.map_cons, bindAll_cons, bindAll_cons, ListItem.tag_respell]
    simp only [ListItem.respell] at ih ⊢
    rw [hbind, ih]

theorem unbindAll_respell (b : Block) (names : List String) :
    unbindAll (b.respell σ) (names.map σ.name) =
      ((unbindAll b names).map fun p => (p.1, p.2.respell σ)).mapError
        fun e => ⟨σ.name e.name⟩ := by
  induction names generalizing b with
  | nil => rfl
  | cons name names ih =>
    rw [List.map_cons, unbindAll, unbindAll, Block.unbind_respell]
    cases b.unbind name with
    | error e => rfl
    | ok p =>
      show (unbindAll (p.2.respell σ) (names.map σ.name)).bind _ =
        (((unbindAll p.2 names).bind _).map _).mapError _
      rw [ih]
      cases unbindAll p.2 names <;> rfl

theorem undeclarable?_respell (settings : Settings) (items : List ListItem) :
    undeclarable? settings (items.map (ListItem.respell σ)) =
      (undeclarable? settings items).map (ListItem.respell σ) := by
  unfold undeclarable?
  split
  · rw [List.find?_map]
    refine congrArg (Option.map (ListItem.respell σ) <| List.find? · items) (funext fun item => ?_)
    simp [ListItem.respell]
  · rfl

end Draft

/-! ## Open blocks and scripts -/

/-- The open block in the new spelling. -/
def OpenBlock.respell (o : OpenBlock) : OpenBlock := { o with block := o.block.respell σ }

namespace Nest

/-- The open blocks in the new spelling. -/
def respell (n : Nest) : Nest := { n with inner := n.inner.map (OpenBlock.respell σ) }

theorem pop?_respell (n : Nest) : (n.respell σ).pop? =
    n.pop?.map fun p => (p.1.respell σ, p.2.respell σ) := by
  obtain ⟨inner, count⟩ := n
  cases inner <;> rfl

theorem current?_respell (n : Nest) :
    (n.respell σ).current? = n.current?.map (Block.respell σ) := by
  obtain ⟨inner, count⟩ := n
  cases inner <;> rfl

theorem setCurrent_respell (n : Nest) (b : Block) :
    (n.respell σ).setCurrent (b.respell σ) = (n.setCurrent b).respell σ := by
  obtain ⟨inner, count⟩ := n
  cases inner <;> rfl

theorem outermost?_respell (n : Nest) :
    (n.respell σ).outermost? = n.outermost?.map (OpenBlock.respell σ) := by
  rw [outermost?, respell, List.getLast?_map, outermost?]

end Nest

theorem Entry.fill_respell (refs : List Ref) (e : Entry) :
    (e.respell σ).fill refs = (e.fill refs).respell σ := by
  obtain ⟨indent, content⟩ := e
  cases content with
  | marked mark refs' => cases mark <;> rfl
  | plain line uses => rfl

theorem Entry.keepUsed_respell (l : Ledger) (e : Entry) :
    (e.respell σ).keepUsed (l.respell σ) = (e.keepUsed l).respell σ := by
  obtain ⟨indent, content⟩ := e
  cases content with
  | marked mark refs =>
    have hkeeps : (l.respell σ).keeps mark = l.keeps mark := funext (l.keeps_respell σ mark)
    simp only [respell, keepUsed, Content.respell, hkeeps]
  | plain line uses => rfl

namespace Script

theorem size_respell (s : Script) : (s.respell σ).size = s.size := by
  simp [size, respell]

theorem push_respell (s : Script) (e : Entry) :
    (s.respell σ).push (e.respell σ) = (s.push e).respell σ := by
  simp [push, respell]

theorem ext_get? {s s' : Script} (h : ∀ k, s.get? k = s'.get? k) : s = s' :=
  congrArg Script.mk (Array.ext_getElem? h)

theorem get?_respell (s : Script) (k : Nat) :
    (s.respell σ).get? k = (s.get? k).map (Entry.respell σ) := by
  simp [get?, respell]

theorem fill_respell (s : Script) (i : Nat) (refs : List Ref) :
    (s.respell σ).fill i refs = (s.fill i refs).respell σ := by
  apply ext_get?
  intro k
  rw [get?_fill, get?_respell, get?_respell, get?_fill]
  split
  · rw [Option.map_map, Option.map_map]
    exact congrArg (Option.map · (s.get? k)) (funext (Entry.fill_respell σ refs))
  · rfl

theorem keepUsed_respell (s : Script) (l : Ledger) :
    (s.respell σ).keepUsed (l.respell σ) = (s.keepUsed l).respell σ := by
  simp only [keepUsed, respell, Array.map_map, Function.comp_def, Entry.keepUsed_respell]

end Script

/-! ## Drafts -/

namespace Draft

/-- The draft in the new spelling. -/
def respell (d : Draft) : Draft :=
  ⟨d.ledger.respell σ, d.nest.respell σ, d.script.respell σ, d.lineCount⟩

theorem respell_empty : respell σ {} = {} := by
  simp [respell, Ledger.respell, Nest.respell, Script.respell]

theorem enter_respell (d : Draft) (indent : String) :
    (d.respell σ).enter indent = (d.enter indent).respell σ := by
  simp only [enter, respell, Script.size_respell, ← Script.push_respell]
  rfl

theorem leave_respell (d : Draft) (indent : String) : (d.respell σ).leave indent =
    ((d.leave indent).map (respell σ)).mapError (Cause.respell σ) := by
  unfold leave
  dsimp only [respell]
  rw [Nest.pop?_respell]
  cases d.nest.pop? with
  | none => rfl
  | some p =>
    simp only [Option.map_some, OpenBlock.respell, Block.refs_respell, Script.fill_respell,
      Except.map, Except.mapError, respell, ← Script.push_respell]
    rfl

theorem declare_respell (settings : Settings) (d : Draft) (indent : String)
    (items : List ListItem) :
    (d.respell σ).declare settings indent (items.map (ListItem.respell σ)) =
      ((d.declare settings indent items).map (respell σ)).mapError (Cause.respell σ) := by
  unfold declare
  dsimp only [respell]
  rw [Nest.current?_respell, undeclarable?_respell]
  cases d.nest.current? with
  | none => rfl
  | some b =>
    cases undeclarable? settings items with
    | some item => rfl
    | none =>
      simp only [Option.map_some, Option.map_none, bindAll_respell, Ledger.size_respell,
        List.length_map, Nest.setCurrent_respell, Except.map, Except.mapError, respell,
        ← Script.push_respell]
      rfl

theorem release_respell (d : Draft) (indent : String) (names : List String) :
    (d.respell σ).release indent (names.map σ.name) =
      ((d.release indent names).map (respell σ)).mapError (Cause.respell σ) := by
  unfold release
  dsimp only [respell]
  rw [Nest.current?_respell]
  cases d.nest.current? with
  | none => rfl
  | some b =>
    simp only [Option.map_some, unbindAll_respell]
    cases unbindAll b names with
    | error e => rfl
    | ok p =>
      simp only [Except.map, Except.mapError, Nest.setCurrent_respell, respell,
        ← Script.push_respell]
      rfl

theorem usesIn_respell (n : Nest) (line : String) :
    usesIn (n.respell σ) (σ.onLine line) = (usesIn n line).mapKeys σ.name := by
  have hnames : names (σ.onLine line) = (names line).map σ.name := by
    apply names_substitute
    intro t s ht hs
    cases hs
    exact Name.isName_extend σ.ofName ht
  have hvisible : ∀ name, ((n.respell σ).current?.bind (·.visible? (σ.name name))) =
      n.current?.bind (·.visible? name) := by
    intro name
    rw [Nest.current?_respell, Option.bind_map]
    exact congrArg _ (funext fun b => Block.visible?_respell σ b name)
  rw [usesIn, usesIn, hnames, ← Table.ofList_mapKeys σ.name_injective, List.filterMap_map,
    List.map_filterMap]
  refine congrArg (fun g => Table.ofList (List.filterMap g (names line))) (funext fun name => ?_)
  rw [Function.comp_apply, hvisible, Option.map_map]
  rfl

theorem plain_respell (d : Draft) (line : String) :
    (d.respell σ).plain (σ.onLine line) = (d.plain line).respell σ := by
  simp only [plain, respell, usesIn_respell, Table.values_mapKeys, Ledger.foldl_noteUse_respell,
    ← Script.push_respell]
  rfl

variable {σ}

/-- **One more line** in the new spelling does the same in the new spelling. -/
theorem take_respell {line line' : String} (h : σ.Says line line') (settings : Settings)
    (d : Draft) : (d.respell σ).take settings line' =
      ((d.take settings line).map (respell σ)).mapError (Cause.respell σ) := by
  obtain ⟨l, hl, hl', hplain⟩ := h
  unfold take
  rw [hl, hl']
  cases l with
  | enter indent => exact congrArg Except.ok (enter_respell σ d indent)
  | leave indent => exact leave_respell σ d indent
  | declare indent items => exact declare_respell σ settings d indent items
  | release indent names => exact release_respell σ d indent names
  | plain =>
    rw [hplain rfl]
    exact congrArg Except.ok (plain_respell σ d line)

theorem addLine_respell {line line' : String} (h : σ.Says line line') (settings : Settings)
    {d : Draft} {lines' : List String} (hline : lines'[d.lineCount]? = some line') :
    (d.respell σ).addLine settings line' =
      ((d.addLine settings line).map (respell σ)).mapError (LineFault.respell σ lines') := by
  rw [addLine, addLine, take_respell h]
  cases d.take settings line with
  | ok d' => rfl
  | error cause =>
    simp only [Except.map, Except.mapError, respell, LineFault.respell, hline, Option.getD_some]

/-- **All lines.** `front` are the lines before, from which the lines are numbered on. -/
theorem foldlM_respell {lines lines' : List String} (h : List.Forall₂ σ.Says lines lines')
    (settings : Settings) {front : List String} {d : Draft}
    (hfront : d.lineCount = front.length) :
    lines'.foldlM (addLine settings) (d.respell σ) =
      ((lines.foldlM (addLine settings) d).map (respell σ)).mapError
        (LineFault.respell σ (front ++ lines')) := by
  induction h generalizing front d with
  | nil => rfl
  | @cons line line' lines lines' hline _ ih =>
    have hget : (front ++ line' :: lines')[d.lineCount]? = some line' := by
      rw [hfront, List.getElem?_append_right (Nat.le_refl _), Nat.sub_self]
      rfl
    rw [List.foldlM_cons, List.foldlM_cons, addLine_respell hline settings hget]
    cases hadd : d.addLine settings line with
    | error e => rfl
    | ok d' =>
      have hnumber : d'.lineCount = (front ++ [line']).length := by
        rw [lineCount_of_addLine hadd, hfront, List.length_append, List.length_singleton]
      rw [List.append_cons]
      exact ih hnumber

theorem finish_respell (settings : Settings) (lines lines' : List String) (d : Draft) :
    (d.respell σ).finish settings lines' =
      ((d.finish settings lines).map (Plan.respell σ)).mapError (LineFault.respell σ lines') := by
  unfold finish
  dsimp only [respell]
  rw [Nest.outermost?_respell]
  cases d.nest.outermost? with
  | some o => rfl
  | none =>
    simp only [Option.map_none, Except.map, Except.mapError, Plan.respell, Script.keepUsed_respell]
    split <;> rfl

end Draft

end

/-! ## Documents -/

/-- **Names and type tags have no meaning.** A document in another spelling is accepted if the
document is, and the plan is the same in the new spelling; if it is refused, it is for the same line
and cause, in the new spelling. -/
theorem Plan.ofText_respell {σ : Respelling} {text text' : String}
    (h : List.Forall₂ σ.Says (lines text) (lines text')) (settings : Settings) :
    ofText settings text' =
      ((ofText settings text).map (Plan.respell σ)).mapError
        (LineFault.respell σ (lines text')) := by
  have hrun := @Draft.foldlM_respell σ _ _ h settings [] {} rfl
  rw [Draft.respell_empty, List.nil_append] at hrun
  rw [ofText, ofText, ofLines_eq_bind, ofLines_eq_bind, Draft.ofLines, hrun, Draft.ofLines]
  cases (lines text).foldlM (Draft.addLine settings) {} with
  | error e => rfl
  | ok d => exact Draft.finish_respell settings (lines text) (lines text') d

/-- Puts a character in front of names. -/
def Name.prefixed (c : Char) (hc : isNameStart c = true) : Name ↪ Name where
  toFun name := ⟨String.ofList (c :: name.1.toList), by
    rw [String.toList_ofList]
    exact isName_cons.2 ⟨hc, isNamePart_of_isName name.2⟩⟩
  inj' a b h := by
    have hchars := congrArg String.toList (congrArg Subtype.val h)
    rw [String.toList_ofList, String.toList_ofList] at hchars
    exact Subtype.ext (String.toList_inj.1 (List.cons.inj hchars).2)

/-- Names with an underscore in front, and type tags with a dollar sign. -/
def Respelling.sample : Respelling := ⟨Name.prefixed '_' rfl, Name.prefixed '$' rfl⟩

theorem Plan.ofText_respell_samples :
    (∃ p, ofText {} "~begin\n~def x:int y\nx = y + z;\n~end" = .ok p ∧
      ofText {} "~begin\n~ def _x : $int  _y\n_x = _y + _z;\n~ end" = .ok (p.respell .sample)) ∧
    ofText {} "~begin\n~undef _x\n~end" = .error ⟨.unbound ⟨"_x"⟩, 1, "~undef _x"⟩ := by
  constructor
  · have hok : (ofText {} "~begin\n~def x:int y\nx = y + z;\n~end").isOk = true := by
      decide +kernel
    cases hp : ofText {} "~begin\n~def x:int y\nx = y + z;\n~end" with
    | error e =>
      rw [hp] at hok
      cases hok
    | ok p =>
      have hlines : lines "~begin\n~def x:int y\nx = y + z;\n~end" =
          ["~begin", "~def x:int y", "x = y + z;", "~end"] := by decide +kernel
      have hlines' : lines "~begin\n~ def _x : $int  _y\n_x = _y + _z;\n~ end" =
          ["~begin", "~ def _x : $int  _y", "_x = _y + _z;", "~ end"] := by decide +kernel
      have hsays : List.Forall₂ Respelling.sample.Says
          (lines "~begin\n~def x:int y\nx = y + z;\n~end")
          (lines "~begin\n~ def _x : $int  _y\n_x = _y + _z;\n~ end") := by
        rw [hlines, hlines']
        refine .cons ⟨.enter "", ?_⟩ (.cons ⟨.declare "" [⟨"x", some "int"⟩, ⟨"y", none⟩], ?_⟩
          (.cons ⟨.plain, ?_⟩ (.cons ⟨.leave "", ?_⟩ .nil))) <;> decide +kernel
      refine ⟨p, rfl, ?_⟩
      rw [ofText_respell hsays, hp]
      rfl
  · have hlines : lines "~begin\n~undef x\n~end" = ["~begin", "~undef x", "~end"] := by
      decide +kernel
    have hlines' : lines "~begin\n~undef _x\n~end" = ["~begin", "~undef _x", "~end"] := by
      decide +kernel
    have hsays : List.Forall₂ Respelling.sample.Says (lines "~begin\n~undef x\n~end")
        (lines "~begin\n~undef _x\n~end") := by
      rw [hlines, hlines']
      refine .cons ⟨.enter "", ?_⟩ (.cons ⟨.release "" ["x"], ?_⟩ (.cons ⟨.leave "", ?_⟩ .nil)) <;>
        decide +kernel
    rw [ofText_respell hsays]
    decide +kernel

end BlockSlots
