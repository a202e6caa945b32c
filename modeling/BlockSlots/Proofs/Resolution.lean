import BlockSlots.Proofs.Pieces
import BlockSlots.Proofs.Tracks

/-!
# What names stand for

A plain line refers to bindings of the innermost block around it, and of no other. A name stands for
the latest declaration of it, made directly in that block on an earlier line, that no release is
matched with (`standing`); a name without one is left as it is.

* `written_of_plain`: the entry of a plain line names these declarations, and the line is written
  with each of their names replaced and every other character kept.
-/

set_option autoImplicit false

namespace BlockSlots

open Text

theorem usesAfter_of_innermost? {ls : List Line} {b : Nat} (hi : innermost? ls = some b)
    (line : String) : (usesAfter ls line).entries =
      (names line).eraseDups.filterMap fun name =>
        (standing name (history ls b)).head?.map (name, ·) := by
  have hresolve : resolve? ls = fun name => (standing name (history ls b)).head? := by
    funext name
    rw [resolve?, hi, Option.bind_some]
  rw [usesAfter, Table.ofList_graph, hresolve]
  rfl

theorem usesAfter_of_none {ls : List Line} (hi : innermost? ls = none) (line : String) :
    usesAfter ls line = {} := by
  have hresolve : resolve? ls = fun _ => none := by
    funext name
    rw [resolve?, hi, Option.bind_none]
  rw [usesAfter, Table.ofList_graph, hresolve]
  simp [Table.graph]

/-- A plain line whose names are recorded with what they stand for is written with each of these
replaced. -/
theorem written_plain_graph (g : Dialect) (ledger : Ledger) (indent : String)
    (f : String → Option Ref) (line : String) :
    Entry.written g ledger ⟨indent, .plain line (.ofList (Table.graph f (names line)))⟩ =
      indent ++ substitute (fun name => ((f name).bind ledger.binding?).map g.use) line := by
  refine congrArg (indent ++ ·) (substitute_congr fun name hname => ?_)
  rw [Table.get?_ofList_graph, if_pos hname]

/-- A plain line is written with the names that stand for a binding replaced. -/
theorem written_plain_usesAfter (g : Dialect) (ledger : Ledger) (ls : List Line) (line : String) :
    Entry.written g ledger ⟨"", .plain line (usesAfter ls line)⟩ =
      .ofList ((pieces line.toList).flatMap fun
        | .name t => (((resolve? ls t).bind ledger.binding?).elim t g.use).toList
        | .other c => [c]) := by
  rw [usesAfter, written_plain_graph, String.empty_append, substitute]
  refine congrArg _ (List.flatMap_congr fun piece _ => ?_)
  cases piece with
  | other c => rfl
  | name t =>
    rw [Piece.replaced]
    dsimp only
    cases (resolve? ls t).bind ledger.binding? <;> rfl

namespace Plan

variable {settings : Settings} {lines : List String} {p : Plan}

theorem get?_script_of_plain (h : ofLines settings lines = .ok p) {n : Nat} {line : String}
    (hn : lines[n]? = some line) (hplain : Line.read line = .plain) :
    p.script.get? n = some ⟨"", .plain line (usesAfter (outline (lines.take n)) line)⟩ := by
  rw [get?_script h hn, hplain, entryOf, ← outline_take]
  exact congrArg some (ite_self _)

theorem getElem?_writtenLines (g : Dialect) (p : Plan) (n : Nat) :
    (p.writtenLines g)[n]? = (p.script.get? n).map (Entry.written g p.ledger) := by
  rw [writtenLines, List.getElem?_map, Array.getElem?_toList]
  rfl

/-- A directive is written as the white space in front of it and the text of the dialect. -/
theorem getElem?_writtenLines_marked (g : Dialect) {p : Plan} {n : Nat} {indent : String}
    {mark : Mark} {refs : List Ref} (h : p.script.get? n = some ⟨indent, .marked mark refs⟩) :
    (p.writtenLines g)[n]? =
      some (indent ++ g.text mark (refs.filterMap (p.ledger.shown? mark))) := by
  rw [getElem?_writtenLines, h]
  rfl

/-- The record that a name of a plain line stands for is that of its declaration, and is used. -/
theorem binding?_of_standing (h : ofLines settings lines = .ok p) {n b : Nat} {line name : String}
    {r : Ref} (hn : lines[n]? = some line) (hplain : Line.read line = .plain)
    (hi : innermost? (outline (lines.take n)) = some b) (hname : name ∈ names line)
    (hr : (standing name (history (outline (lines.take n)) b)).head? = some r) :
    ∃ v, p.ledger.binding? r = some v ∧ v.name = name ∧
      .bind r name v.tag ∈ history (outline (lines.take n)) b ∧ v.used = true := by
  obtain ⟨d, ht, -, rfl⟩ := exists_tracks h
  obtain ⟨tag, hm⟩ := bind_mem_of_standing (List.mem_of_mem_head? hr)
  obtain ⟨before, after, hsplit⟩ := List.append_of_mem hm
  have hprefix : before ++ [.bind r name tag] <+: history (outline lines) b := by
    rw [outline_take] at hsplit
    refine List.IsPrefix.trans ⟨after, ?_⟩ (history_take_isPrefix (outline lines) n b)
    rw [hsplit, List.append_assoc]
    rfl
  obtain ⟨used, hrow⟩ := ht.rows hprefix
  have hused := (ht.used hrow).2 ⟨b, n, line, name, hn, hplain, hi, hname, hr⟩
  exact ⟨_, by rw [Ledger.binding?, hrow]; rfl, rfl, hm, hused⟩

/-- **What a plain line is written as.** Outside of all blocks it is kept. Directly in block `b`,
its uses list each name, in the order of first mention, that some declaration directly in the block
is left unmatched for, with the latest of these; the line is written with the dialect's text in
place of each such name, and every other character is kept. -/
theorem written_of_plain {text : String} (h : ofText settings text = .ok p) (g : Dialect) {n : Nat}
    {line : String} (hn : (Text.lines text)[n]? = some line)
    (hplain : Line.ofString line = .ok .plain) :
    (openers (outline ((Text.lines text).take n)) = [] →
      p.script.get? n = some ⟨"", .plain line {}⟩ ∧ (p.writtenLines g)[n]? = some line) ∧
    ∀ b acts, innermost? (outline ((Text.lines text).take n)) = some b →
      acts = history (outline ((Text.lines text).take n)) b →
      (∃ uses, p.script.get? n = some ⟨"", .plain line uses⟩ ∧
        uses.entries = (names line).eraseDups.filterMap fun name =>
          (standing name acts).head?.map (name, ·)) ∧
      (∀ name ∈ names line, ∀ r, (standing name acts).head? = some r →
        ∃ v, p.ledger.binding? r = some v ∧ v.name = name ∧ .bind r name v.tag ∈ acts ∧
          v.used = true) ∧
      (p.writtenLines g)[n]? = some (.ofList ((pieces line.toList).flatMap fun
        | .name t => (((standing t acts).head?.bind p.ledger.binding?).elim t g.use).toList
        | .other c => [c])) := by
  have hread := Line.read_of_ofString hplain
  have hentry := get?_script_of_plain h hn hread
  have hwritten := getElem?_writtenLines g p n
  rw [hentry, Option.map_some] at hwritten
  refine ⟨fun ho => ?_, fun b acts hi hacts => ?_⟩
  · have hi : innermost? (outline ((Text.lines text).take n)) = none := by
      rw [innermost?, ho]
      rfl
    rw [usesAfter_of_none hi] at hentry hwritten
    refine ⟨hentry, hwritten.trans (congrArg some ?_)⟩
    exact (String.empty_append ..).trans (substitute_none line)
  · subst hacts
    refine ⟨⟨_, hentry, usesAfter_of_innermost? hi line⟩,
      fun name hname r hr => binding?_of_standing h hn hread hi hname hr, ?_⟩
    rw [hwritten, written_plain_usesAfter]
    simp only [resolve?, hi, Option.bind_some]

/-- A block with a hidden and a released name, an inner block, and a slot that is taken again. -/
def sample : String := "\n".intercalate
  ["~begin", "~def x:int y:int", "~def x:float", "~begin", "  ~def y:int", "~end", "~undef x y",
    "x = y + z;", "~def z:int", "z;", "~end"]

theorem isOk_sample : (ofText {} sample).isOk = true := by decide +kernel

theorem written_of_plain_sample : ∃ p uses, ofText {} sample = .ok p ∧
    p.script.get? 7 = some ⟨"", .plain "x = y + z;" uses⟩ ∧ uses.entries = [("x", 0)] := by
  have hn : (Text.lines sample)[7]? = some "x = y + z;" := by decide +kernel
  have hi : innermost? (outline ((Text.lines sample).take 7)) = some 0 := by decide +kernel
  have hok := isOk_sample
  cases hp : ofText {} sample with
  | error e => rw [hp] at hok; cases hok
  | ok p =>
    obtain ⟨⟨uses, hentry, huses⟩, -, -⟩ := (written_of_plain hp {} hn rfl).2 0 _ hi rfl
    exact ⟨p, uses, rfl, hentry, huses.trans (by decide +kernel)⟩

end Plan

end BlockSlots
