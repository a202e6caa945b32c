import BlockSlots.Expand
import BlockSlots.Proofs.Acceptance
import BlockSlots.Proofs.Harmless
import BlockSlots.Proofs.Records
import BlockSlots.Proofs.Resolution

/-!
# The lines of what is written

A document is written line by line: what is written has as many lines as the document, each of them
written for the line of the same number. For this no text of the dialect may break a line, at least
not for names and type tags as they are written in documents (`Dialect.KeepsLines`).

* `Draft.Tracks.named`: only such names and type tags are shown to a dialect.
* `Line.indent_eq_takeWhile`: a directive keeps all of the white space in front of it.
* `Plan.unbroken_of_mem_writtenLines`: no line that is written has a line ending in it.
* `Plan.lines_written`: so they are the lines of the whole text.
* `lines_expandWith`: what each of them is.
-/

set_option autoImplicit false

namespace BlockSlots

open Text

/-! ## Names and type tags -/

/-- The name of the binding is a name, and its type tag is one or empty. -/
structure Binding.Named (v : Binding) : Prop where
  name : isName v.name.toList = true
  tag : v.tag = "" ∨ isName v.tag.toList = true

theorem Binding.Named.quiet_tag {v : Binding} (h : v.Named) : Quiet v.tag := by
  rcases h.tag with htag | htag
  · rw [htag]
    decide
  · exact quiet_of_isName htag

theorem exists_acts_of_mem_history {ls : List Line} {b : Nat} {a : Act} (h : a ∈ history ls b) :
    ∃ l ∈ ls, ∃ ref, a ∈ l.acts ref := by
  obtain ⟨⟨l, k⟩, hl, ha⟩ := List.mem_flatMap.1 h
  split at ha
  · exact ⟨l, List.fst_mem_of_mem_zipIdx hl, _, ha⟩
  · cases ha

theorem exists_item_of_mem_bindActs {ref r : Ref} {items : List ListItem} {name tag : String}
    (h : Act.bind r name tag ∈ bindActs ref items) :
    ∃ item ∈ items, name = item.name ∧ tag = item.tag := by
  induction items generalizing ref with
  | nil => cases h
  | cons item items ih =>
    rcases List.mem_cons.1 h with heq | h
    · cases heq
      exact ⟨item, List.mem_cons_self, rfl, rfl⟩
    · obtain ⟨item, hitem, heq⟩ := ih h
      exact ⟨item, List.mem_cons_of_mem _ hitem, heq⟩

theorem isName_of_mem_history {lines : List String} {b : Nat} {r : Ref} {name tag : String}
    (h : Act.bind r name tag ∈ history (outline lines) b) :
    isName name.toList = true ∧ (tag = "" ∨ isName tag.toList = true) := by
  obtain ⟨l, hl, ref, ha⟩ := exists_acts_of_mem_history h
  obtain ⟨line, -, hread⟩ := List.mem_map.1 hl
  cases l with
  | declare indent items =>
    obtain ⟨item, hitem, rfl, rfl⟩ := exists_item_of_mem_bindActs ha
    obtain ⟨hname, htag⟩ :=
      Line.isName_of_declare (Line.ofString_of_read hread (by simp)) hitem
    refine ⟨hname, ?_⟩
    unfold ListItem.tag
    cases ht : item.tag? with
    | none => exact .inl rfl
    | some tag => exact .inr (htag tag ht)
  | release indent names => simp [Line.acts] at ha
  | enter indent => cases ha
  | leave indent => cases ha
  | plain => cases ha

theorem exists_row_of_shown? {l : Ledger} {mark : Mark} {r : Ref} {v : Binding}
    (h : l.shown? mark r = some v) :
    ∃ row, l.get? r = some row ∧ v.name = row.binding.name ∧ v.tag = row.binding.tag := by
  cases mark with
  | enter | leave | declare | release =>
    obtain ⟨row, hrow, rfl⟩ := Option.map_eq_some_iff.1 h
    exact ⟨row, hrow, rfl, rfl⟩

/-- **What a dialect is shown** has names and type tags as they are written in documents. -/
theorem Draft.Tracks.named {lines : List String} {d : Draft} (ht : Tracks lines d) {mark : Mark}
    {r : Ref} {v : Binding} (h : d.ledger.shown? mark r = some v) : v.Named := by
  obtain ⟨row, hrow, hname, htag⟩ := exists_row_of_shown? h
  obtain ⟨b, hb⟩ := ht.owned (Ledger.lt_size_of_get? hrow)
  obtain ⟨before, name, tag, used, hp, hget⟩ := ht.get?_of_mem_records hb
  rw [hget, Option.some.injEq] at hrow
  obtain ⟨hname', htag'⟩ := isName_of_mem_history (hp.subset List.mem_concat_self)
  rw [← hrow] at hname htag
  exact ⟨hname ▸ hname', htag ▸ htag'⟩

/-! ## Dialects -/

/-- The text has no line ending in it. -/
abbrev Unbroken (s : String) : Prop := '\r' ∉ s.toList ∧ '\n' ∉ s.toList

theorem Unbroken.append {s t : String} (hs : Unbroken s) (ht : Unbroken t) : Unbroken (s ++ t) := by
  simp [Unbroken, hs.1, hs.2, ht.1, ht.2]

/-- No text of the dialect breaks a line, if names and type tags are as they are written in
documents. -/
structure Dialect.KeepsLines (g : Dialect) : Prop where
  text : ∀ mark bindings, (∀ v ∈ bindings, v.Named) → Unbroken (g.text mark bindings)
  use : ∀ v, v.Named → Unbroken (g.use v)

theorem Dialect.Harmless.keepsLines {g : Dialect} (hg : g.Harmless) : g.KeepsLines where
  text mark bindings h := (hg.text mark bindings fun v hv => (h v hv).quiet_tag).unbroken
  use v _ := (hg.use v).2.unbroken

/-! ## Entries -/

/-- The mark of a directive. -/
def Line.mark? : Line → Option Mark
  | .enter _ => some .enter
  | .leave _ => some .leave
  | .declare _ _ => some .declare
  | .release _ _ => some .release
  | .plain => none

theorem Line.mark?_eq_none_iff {l : Line} : l.mark? = none ↔ l = .plain := by
  cases l <;> simp [mark?]

/-- All of the white space in front of a directive is its indent. -/
theorem Line.indent_eq_takeWhile {line : String} {l : Line} {mark : Mark}
    (h : Line.ofString line = .ok l) (hmark : l.mark? = some mark) :
    l.indent = String.ofList (line.toList.takeWhile isBlank) := by
  have hne : l ≠ .plain := by
    rintro rfl
    cases hmark
  generalize hcs : line.toList = cs
  have hspells : Spells l cs := spells_iff.2 ⟨hcs ▸ h, hne⟩
  obtain ⟨hindent, -, htail⟩ := hspells
  rw [takeWhile_blank_append hindent (bare_tilde _), String.ofList_toList]
  cases htail <;> rfl

theorem exists_entryOf_of_mark? (ls : List Line) (k : Nat) (text : String) {l : Line} {mark : Mark}
    (h : l.mark? = some mark) : ∃ refs, entryOf ls k text l = ⟨l.indent, .marked mark refs⟩ := by
  cases l with
  | plain => cases h
  | enter | leave | declare | release => cases h; exact ⟨_, rfl⟩

namespace Plan

variable {settings : Settings} {lines : List String} {p : Plan} {n : Nat} {line : String}

theorem exists_ofString (h : ofLines settings lines = .ok p) (hn : lines[n]? = some line) :
    ∃ l, Line.ofString line = .ok l := by
  obtain ⟨l, hl, -⟩ := (exists_ofLines_iff.1 ⟨p, h⟩).2 n line hn
  exact ⟨l, hl⟩

/-- The entry of a directive has its indent and its mark. -/
theorem get?_script_of_mark? (h : ofLines settings lines = .ok p) (hn : lines[n]? = some line)
    {mark : Mark} (hmark : (Line.read line).mark? = some mark) :
    ∃ refs, p.script.get? n = some ⟨(Line.read line).indent, .marked mark refs⟩ := by
  obtain ⟨refs, hentry⟩ := exists_entryOf_of_mark? (outline lines) n line hmark
  rw [get?_script h hn, hentry]
  split
  · exact ⟨_, rfl⟩
  · exact ⟨refs, rfl⟩

/-! ## What is written -/

/-- **What a directive is written as**: its indent, then the text of the dialect. -/
theorem getElem?_writtenLines_of_mark? (h : ofLines settings lines = .ok p) (g : Dialect)
    (hn : lines[n]? = some line) {mark : Mark} (hmark : (Line.read line).mark? = some mark) :
    ∃ refs, p.script.get? n = some ⟨(Line.read line).indent, .marked mark refs⟩ ∧
      (p.writtenLines g)[n]? = some ((Line.read line).indent ++
        g.text mark (refs.filterMap (p.ledger.shown? mark))) := by
  obtain ⟨refs, hentry⟩ := get?_script_of_mark? h hn hmark
  exact ⟨refs, hentry, getElem?_writtenLines_marked g hentry⟩

/-- **What a plain line is written as**: itself, with the names replaced that its entry lists. -/
theorem getElem?_writtenLines_of_plain (h : ofLines settings lines = .ok p) (g : Dialect)
    (hn : lines[n]? = some line) (hplain : Line.read line = .plain) :
    ∃ uses, p.script.get? n = some ⟨"", .plain line uses⟩ ∧
      (p.writtenLines g)[n]? = some
        (substitute (fun name => ((uses.get? name).bind p.ledger.binding?).map g.use) line) := by
  refine ⟨_, get?_script_of_plain h hn hplain, ?_⟩
  rw [getElem?_writtenLines, get?_script_of_plain h hn hplain]
  exact congrArg some (String.empty_append ..)

/-- **No line that is written has a line ending in it**, if no line of the document has. -/
theorem unbroken_of_mem_writtenLines (h : ofLines settings lines = .ok p)
    (hlines : ∀ line ∈ lines, Unbroken line) {g : Dialect} (hg : g.KeepsLines) {out : String}
    (hm : out ∈ p.writtenLines g) : Unbroken out := by
  obtain ⟨n, hn⟩ := List.mem_iff_getElem?.1 hm
  have hlt := (List.getElem?_eq_some_iff.1 hn).1
  rw [length_writtenLines h g] at hlt
  have hline : lines[n]? = some lines[n] := List.getElem?_eq_getElem hlt
  have hunbroken := hlines _ (List.getElem_mem hlt)
  obtain ⟨l, hl⟩ := exists_ofString h hline
  have hread := Line.read_of_ofString hl
  have hnamed : ∀ {mark r v}, p.ledger.shown? mark r = some v → v.Named := by
    obtain ⟨d, ht, -, rfl⟩ := exists_tracks h
    exact ht.named
  cases hmark : l.mark? with
  | some mark =>
    obtain ⟨refs, -, hwritten⟩ := getElem?_writtenLines_of_mark? h g hline (hread ▸ hmark)
    rw [hn, hread, Option.some.injEq] at hwritten
    obtain ⟨-, hsub⟩ := Line.indent_of_ofString hl
    have hindent : Unbroken l.indent :=
      ⟨fun hr => hunbroken.1 (hsub hr), fun hr => hunbroken.2 (hsub hr)⟩
    rw [hwritten]
    apply hindent.append
    apply hg.text
    intro v hv
    obtain ⟨r, -, hr⟩ := List.mem_filterMap.1 hv
    exact hnamed hr
  | none =>
    obtain rfl := Line.mark?_eq_none_iff.1 hmark
    obtain ⟨uses, -, hwritten⟩ := getElem?_writtenLines_of_plain h g hline hread
    rw [hn, Option.some.injEq] at hwritten
    rw [hwritten]
    have huse : ∀ t s, ((uses.get? t).bind p.ledger.binding?).map g.use = some s → Unbroken s := by
      intro t s hs
      obtain ⟨v, hv, rfl⟩ := Option.map_eq_some_iff.1 hs
      obtain ⟨r, -, hr⟩ := Option.bind_eq_some_iff.1 hv
      exact hg.use v (@hnamed .declare r v hr)
    exact ⟨not_mem_substitute hunbroken.1 fun t s hs => (huse t s hs).1,
      not_mem_substitute hunbroken.2 fun t s hs => (huse t s hs).2⟩

/-- **The lines of what is written** are those written for the lines of the document. -/
theorem lines_written {text : String} (h : ofText settings text = .ok p) {g : Dialect}
    (hg : g.KeepsLines) {sep : String} (hsep : sep ∈ endings) :
    Text.lines (p.written g sep) = p.writtenLines g := by
  apply lines_intercalate_ending hsep
  · intro hnil
    have hlength := length_writtenLines h g
    rw [hnil] at hlength
    exact lines_ne_nil text (List.length_eq_zero_iff.1 hlength.symm)
  · intro line hline
    exact unbroken_of_mem_writtenLines h (fun _ => not_mem_of_mem_lines) hg hline

end Plan

/-- **Lines are kept.** Let an accepted document be written with a line ending between the lines and
in a dialect that breaks no line, as every built-in language is one. What is written has as many
lines as the document. A directive is written as the white space in front of it and the text of the
dialect for its entry; a plain line with the names replaced that its entry lists. -/
theorem lines_expandWith {settings : Settings} (hsep : settings.separator ∈ endings) :
    (∀ language : Language, language.dialect.KeepsLines) ∧
    ∀ g : Dialect, g.KeepsLines → ∀ text p, Plan.ofText settings text = .ok p →
      ∃ out, expandWith settings g text = .ok out ∧
        (lines out).length = (lines text).length ∧
        ∀ (n : Nat) (line : String), (lines text)[n]? = some line →
          ∃ l, Line.ofString line = .ok l ∧
            (∀ mark, l.mark? = some mark →
              ∃ indent refs, indent = .ofList (line.toList.takeWhile isBlank) ∧
              p.script.get? n = some ⟨indent, .marked mark refs⟩ ∧
              (mark = .enter → (lines out)[n]? =
                some (indent ++ g.enter (refs.filterMap (p.ledger.shown? .enter)))) ∧
              (mark = .leave → (lines out)[n]? =
                some (indent ++ g.leave (refs.filterMap (p.ledger.shown? .leave)))) ∧
              (mark = .declare → (lines out)[n]? =
                some (indent ++ g.declare (refs.filterMap (p.ledger.shown? .declare)))) ∧
              (mark = .release → (lines out)[n]? =
                some (indent ++ g.release (refs.filterMap (p.ledger.shown? .release))))) ∧
            (l = .plain → ∃ uses, p.script.get? n = some ⟨"", .plain line uses⟩ ∧
              (lines out)[n]? = some (substitute
                (fun name => ((uses.get? name).bind p.ledger.binding?).map g.use) line)) := by
  refine ⟨fun language => language.harmless.keepsLines, fun g hg text p h => ?_⟩
  have hout : expandWith settings g text = .ok (p.written g settings.separator) := by
    rw [expandWith, h]
    rfl
  refine ⟨_, hout, ?_⟩
  rw [Plan.lines_written h hg hsep]
  refine ⟨Plan.length_writtenLines h g, fun n line hn => ?_⟩
  obtain ⟨l, hl⟩ := Plan.exists_ofString h hn
  have hread := Line.read_of_ofString hl
  refine ⟨l, hl, fun mark hmark => ?_, fun hplain => ?_⟩
  · obtain ⟨refs, hentry, hwritten⟩ :=
      Plan.getElem?_writtenLines_of_mark? h g hn (hread ▸ hmark)
    rw [hread] at hentry hwritten
    refine ⟨l.indent, refs, Line.indent_eq_takeWhile hl hmark, hentry, ?_, ?_, ?_, ?_⟩
    all_goals
      rintro rfl
      exact hwritten
  · exact Plan.getElem?_writtenLines_of_plain h g hn (hread.trans hplain)

theorem lines_expandWith_sample : ∃ p,
    Plan.ofText { separator := "\r" } "  ~begin\n\t~def x:int\r  x;\r\n~end" = .ok p ∧
    ∃ out, expandWith { separator := "\r" } Language.typed.dialect
        "  ~begin\n\t~def x:int\r  x;\r\n~end" = .ok out ∧
      (lines out).length = 4 ∧
      (∃ refs : List Ref, (lines out)[0]? = some ("  " ++
        Language.typed.dialect.enter (refs.filterMap (p.ledger.shown? .enter)))) ∧
      out = "  int i0;\r\t\r  i0;\r" := by
  have hout : expandWith { separator := "\r" } Language.typed.dialect
      "  ~begin\n\t~def x:int\r  x;\r\n~end" = .ok "  int i0;\r\t\r  i0;\r" := by decide +kernel
  have hok : (Plan.ofText { separator := "\r" }
      "  ~begin\n\t~def x:int\r  x;\r\n~end").isOk = true := by decide +kernel
  have hread : Line.ofString "  ~begin" = .ok (.enter "  ") := by decide +kernel
  cases hp : Plan.ofText { separator := "\r" } "  ~begin\n\t~def x:int\r  x;\r\n~end" with
  | error e => rw [hp] at hok; cases hok
  | ok p =>
    obtain ⟨hkeeps, hall⟩ := @lines_expandWith { separator := "\r" } (by decide)
    obtain ⟨out, h, hlength, hlines⟩ := hall _ (hkeeps .typed) _ p hp
    obtain ⟨l, hl, hmarked, -⟩ := hlines 0 "  ~begin" (by decide +kernel)
    rw [hread, Except.ok.injEq] at hl
    obtain ⟨indent, refs, rfl, -, hfirst, -⟩ := hmarked .enter (hl ▸ rfl)
    rw [hout, Except.ok.injEq] at h
    exact ⟨p, rfl, out, hout.trans (congrArg _ h), hlength.trans (by decide +kernel),
      ⟨refs, hfirst rfl⟩, h.symm⟩

end BlockSlots
