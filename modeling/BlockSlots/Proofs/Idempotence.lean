import BlockSlots.Proofs.LineStructure

/-!
# Expanding twice

What a harmless dialect writes has no directive in it, and lines without directives are written as
they stand. So what a built-in language writes is expanded to itself, by every built-in language.

* `plain_of_mem_writtenLines`: every line that a harmless dialect writes is plain.
* `ofLines_of_plain`: plain lines are written as they stand.
* `expand_expand`: both together.
-/

set_option autoImplicit false

namespace BlockSlots

open Text

/-! ## What is written -/

/-- The entry of a line of a text: of a directive with quiet white space, or of a plain line. -/
inductive Entry.Sound : Entry → Prop
  | marked {indent : String} {mark : Mark} {refs : List Ref} (h : Quiet indent) :
      Sound ⟨indent, .marked mark refs⟩
  | plain {line : String} {uses : Uses} (h : Line.ofString line = .ok .plain)
      (hline : '\n' ∉ line.toList) : Sound ⟨"", .plain line uses⟩

theorem Entry.sound_entryOf {line : String} {l : Line} (h : Line.ofString line = .ok l)
    (hline : '\r' ∉ line.toList ∧ '\n' ∉ line.toList) (ls : List Line) (k : Nat) :
    (entryOf ls k line l).Sound := by
  obtain ⟨hblank, hsub⟩ := Line.indent_of_ofString h
  have hquiet := quiet_of_blank hblank (fun hm => hline.1 (hsub hm)) fun hm => hline.2 (hsub hm)
  cases l with
  | plain => exact .plain h hline.2
  | _ => exact .marked hquiet

theorem Entry.Sound.keepUsed {e : Entry} (h : e.Sound) (ledger : Ledger) :
    (e.keepUsed ledger).Sound := by
  cases h with
  | marked h => exact .marked h
  | plain h hline => exact .plain h hline

theorem Entry.Sound.plain_written {e : Entry} (h : e.Sound) {g : Dialect} (hg : g.Harmless)
    {ledger : Ledger} (ht : ∀ mark r v, ledger.shown? mark r = some v → v.Named)
    (hwritten : '\n' ∉ (e.written g ledger).toList) :
    Line.ofString (e.written g ledger) = .ok .plain := by
  cases h with
  | @marked indent mark refs hindent =>
    have hquiet : Quiet (indent ++ g.text mark (refs.filterMap (ledger.shown? mark))) := by
      refine hindent.append (hg.text mark _ fun v hv => ?_)
      obtain ⟨r, -, hr⟩ := List.mem_filterMap.1 hv
      exact (ht mark r v hr).quiet_tag
    exact hquiet.ofString_eq
  | @plain line uses h hline =>
    rw [Entry.written, String.empty_append] at hwritten ⊢
    refine Line.ofString_substitute (fun t s hs => ?_) hline hwritten h
    obtain ⟨v, -, rfl⟩ := Option.map_eq_some_iff.1 hs
    exact (hg.use v).1

namespace Plan

variable {settings : Settings} {lines : List String} {p : Plan}

/-- **What a harmless dialect writes** has no directive in it. -/
theorem plain_of_mem_writtenLines (h : ofLines settings lines = .ok p)
    (hlines : ∀ line ∈ lines, '\r' ∉ line.toList ∧ '\n' ∉ line.toList) {g : Dialect}
    (hg : g.Harmless) {line : String} (hm : line ∈ p.writtenLines g) :
    Line.ofString line = .ok .plain ∧ '\r' ∉ line.toList ∧ '\n' ∉ line.toList := by
  have hunbroken := unbroken_of_mem_writtenLines h hlines hg.keepsLines hm
  refine ⟨?_, hunbroken⟩
  obtain ⟨k, hk⟩ := List.mem_iff_getElem?.1 hm
  have hlt := (List.getElem?_eq_some_iff.1 hk).1
  rw [length_writtenLines h g] at hlt
  have hline : lines[k]? = some lines[k] := List.getElem?_eq_getElem hlt
  obtain ⟨l, hl⟩ := exists_ofString h hline
  have hsound := Entry.sound_entryOf hl (hlines _ (List.getElem_mem hlt)) (outline lines) k
  have hnamed : ∀ mark r v, p.ledger.shown? mark r = some v → v.Named := by
    obtain ⟨d, ht, -, rfl⟩ := exists_tracks h
    exact fun _ _ _ => ht.named
  rw [getElem?_writtenLines, get?_script h hline, Line.read_of_ofString hl, Option.map_some,
    Option.some.injEq] at hk
  rw [← hk] at hunbroken ⊢
  refine Entry.Sound.plain_written ?_ hg hnamed hunbroken.2
  split
  · exact hsound.keepUsed p.ledger
  · exact hsound

/-! ## Documents without directives -/

theorem openers_of_plain {ls : List Line} (h : ∀ l ∈ ls, l = .plain) : openers ls = [] := by
  induction ls using List.reverseRecOn with
  | nil => rfl
  | append_singleton ls l ih =>
    have hl := h l (by simp)
    subst hl
    rw [openers_concat]
    exact ih fun l hl => h l (List.mem_append_left _ hl)

/-- **Plain lines are written as they stand**, by every dialect. -/
theorem ofLines_of_plain (h : ∀ line ∈ lines, Line.ofString line = .ok .plain)
    (settings : Settings) :
    ∃ p, ofLines settings lines = .ok p ∧ ∀ g, p.writtenLines g = lines := by
  have hread : ∀ line ∈ lines, Line.read line = .plain := fun line hl =>
    Line.read_of_ofString (h line hl)
  have hopen : ∀ n, openers (outline (lines.take n)) = [] := by
    intro n
    apply openers_of_plain
    intro l hl
    obtain ⟨line, hline, rfl⟩ := List.mem_map.1 hl
    exact hread line (List.mem_of_mem_take hline)
  obtain ⟨p, hp⟩ : ∃ p, ofLines settings lines = .ok p := by
    refine exists_ofLines_iff.2 ⟨?_, fun k line hk => ?_⟩
    · have hall := hopen lines.length
      rwa [List.take_length] at hall
    · exact ⟨.plain, h line (List.mem_of_getElem? hk), trivial⟩
  refine ⟨p, hp, fun g => List.ext_getElem? fun k => ?_⟩
  rcases Nat.lt_or_ge k lines.length with hlt | hge
  · have hk : lines[k]? = some lines[k] := List.getElem?_eq_getElem hlt
    have hi : innermost? (outline (lines.take k)) = none := by
      rw [innermost?, hopen]
      rfl
    rw [getElem?_writtenLines, get?_script_of_plain hp hk (hread _ (List.getElem_mem hlt)),
      usesAfter_of_none hi, hk]
    exact congrArg some ((String.empty_append ..).trans (substitute_none _))
  · rw [List.getElem?_eq_none hge, List.getElem?_eq_none]
    rw [length_writtenLines hp g]
    exact hge

end Plan

theorem lines_written {settings : Settings} {text : String} {p : Plan}
    (h : Plan.ofText settings text = .ok p) {g : Dialect} (hg : g.Harmless) :
    lines (p.written g "\n") = p.writtenLines g :=
  Plan.lines_written h hg.keepsLines (by decide)

theorem expand_named_eq_ok_iff {settings : Settings} {name text out : String} :
    expand settings (.named name) text = .ok out ↔ ∃ language p,
      Language.ofName? name = some language ∧ Plan.ofText settings text = .ok p ∧
        p.written language.dialect settings.separator = out := by
  simp only [expand, Target.dialect]
  cases Language.ofName? name with
  | none => simp
  | some language =>
    simp only [expandWith]
    cases Plan.ofText settings text <;> simp [Except.map, Except.mapError]

/-- **Expanding twice.** What a built-in language writes has no directive in it, and every built-in
language leaves it as it is. -/
theorem expand_expand {l m text out : String} (h : expand {} (.named l) text = .ok out)
    (hm : (Language.ofName? m).isSome = true) :
    (∀ line ∈ lines out, Line.ofString line = .ok .plain) ∧ expand {} (.named m) out = .ok out := by
  obtain ⟨language, p, -, hp, rfl⟩ := expand_named_eq_ok_iff.1 h
  have hlines := lines_written hp language.harmless
  have hplain : ∀ line ∈ lines (p.written language.dialect "\n"),
      Line.ofString line = .ok .plain := by
    intro line hline
    rw [hlines] at hline
    exact (Plan.plain_of_mem_writtenLines hp (fun _ => not_mem_of_mem_lines)
      language.harmless hline).1
  refine ⟨hplain, expand_named_eq_ok_iff.2 ?_⟩
  obtain ⟨language', hlanguage⟩ := Option.isSome_iff_exists.1 hm
  obtain ⟨q, hq, hwritten⟩ := Plan.ofLines_of_plain hplain {}
  refine ⟨language', q, hlanguage, hq, ?_⟩
  rw [Plan.written, hwritten, hlines]
  rfl

theorem expand_expand_sample :
    (∀ line ∈ lines "int i0;\n\n~ i0;\n", Line.ofString line = .ok .plain) ∧
    expand {} (.named "c-heap") "int i0;\n\n~ i0;\n" = .ok "int i0;\n\n~ i0;\n" :=
  @expand_expand "c" "c-heap" "~begin\n~def x:int\n~ x;\n~end" "int i0;\n\n~ i0;\n"
    (by decide +kernel) (by decide)

end BlockSlots
