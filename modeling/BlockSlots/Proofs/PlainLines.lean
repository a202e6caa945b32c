import BlockSlots.Proofs.FirstFault
import BlockSlots.Proofs.LineStructure

/-!
# What plain lines influence

Two documents may differ in their plain lines alone (`Line.Alike`, line by line). Such documents
have one outline, so one account: all that their plain lines can change is which records are used.

* `outline_eq_of_alike`: the outlines are the same.
* `Plan.ofLines_eq_error_of_alike`: so are the faults.
* `Tracks.agrees`: the records differ at most in their uses.
* `Plan.written_of_alike`: a plain line that both documents have is written the same.
* `Plan.ofText_of_alike`: all of it, for texts.
-/

set_option autoImplicit false

namespace BlockSlots

open Text

/-! ## Documents with other plain lines -/

/-- The lines are the same, or both are plain. -/
def Line.Alike (line line' : String) : Prop :=
  line = line' ∨ Line.ofString line = .ok .plain ∧ Line.ofString line' = .ok .plain

theorem Line.Alike.symm {line line' : String} (h : Line.Alike line line') :
    Line.Alike line' line :=
  h.elim (fun heq => .inl heq.symm) fun hp => .inr ⟨hp.2, hp.1⟩

theorem Line.Alike.ofString_eq {line line' : String} (h : Line.Alike line line') :
    Line.ofString line = Line.ofString line' := by
  rcases h with rfl | ⟨hp, hp'⟩
  · rfl
  · rw [hp, hp']

section
variable {settings : Settings} {lines lines' : List String}

theorem alike_symm (h : List.Forall₂ Line.Alike lines lines') :
    List.Forall₂ Line.Alike lines' lines :=
  (h.imp fun _ _ hline => hline.symm).flip

theorem outline_eq_of_alike (h : List.Forall₂ Line.Alike lines lines') :
    outline lines = outline lines' := by
  induction h with
  | nil => rfl
  | cons hline _ ih =>
    simp only [outline, List.map_cons, Line.read, hline.ofString_eq] at ih ⊢
    rw [ih]

theorem outline_take_eq_of_alike (h : List.Forall₂ Line.Alike lines lines') (n : Nat) :
    outline (lines.take n) = outline (lines'.take n) :=
  outline_eq_of_alike (List.forall₂_take n h)

theorem exists_alike {n : Nat} {line : String} (h : List.Forall₂ Line.Alike lines lines')
    (hn : lines[n]? = some line) : ∃ line', lines'[n]? = some line' ∧ Line.Alike line line' := by
  induction h generalizing n with
  | nil => cases hn
  | cons hline _ ih =>
    cases n with
    | zero => cases hn; exact ⟨_, rfl, hline⟩
    | succ n => exact ih hn

/-- Where a line is not plain, both documents have it. -/
theorem getElem?_of_alike {n : Nat} {line : String} (h : List.Forall₂ Line.Alike lines lines')
    (hn : lines[n]? = some line) (hplain : Line.ofString line ≠ .ok .plain) :
    lines'[n]? = some line := by
  obtain ⟨line', hn', heq | ⟨hp, -⟩⟩ := exists_alike h hn
  · rw [hn', heq]
  · exact absurd hp hplain

/-! ## Faults -/

theorem Refused.ofString_ne {ls : List Line} {line : String} {cause : Cause}
    (h : Refused settings ls line cause) : Line.ofString line ≠ .ok .plain := by
  cases h with
  | list hl | leave hl | declare hl | release hl | untyped hl | unbound hl => simp [hl]

theorem Draft.exists_ofLines_of_alike (h : List.Forall₂ Line.Alike lines lines')
    (hd : ∃ d, Draft.ofLines settings lines = .ok d) :
    ∃ d, Draft.ofLines settings lines' = .ok d := by
  rw [exists_ofLines_iff] at hd ⊢
  intro k line' hk'
  obtain ⟨line, hk, hline⟩ := exists_alike (alike_symm h) hk'
  obtain ⟨l, hl, hadm⟩ := hd k line hk
  rw [← outline_eq_of_alike h]
  exact ⟨l, hline.ofString_eq.trans hl, hadm⟩

/-- A line that is refused is no plain line, so both documents have it, after the same outline. -/
theorem Draft.ofLines_eq_error_of_alike (h : List.Forall₂ Line.Alike lines lines')
    {e : LineFault} (he : Draft.ofLines settings lines = .error e) :
    Draft.ofLines settings lines' = .error e := by
  obtain ⟨d, hget, hpre, htake⟩ := ofLines_eq_error_iff.1 he
  have hrefused := (tracks_ofLines hpre).take_eq_error_iff.1 htake
  obtain ⟨d', hpre'⟩ := exists_ofLines_of_alike (List.forall₂_take e.line h) ⟨d, hpre⟩
  refine ofLines_eq_error_iff.2 ⟨d', getElem?_of_alike h hget hrefused.ofString_ne, hpre', ?_⟩
  rw [(tracks_ofLines hpre').take_eq_error_iff, ← outline_take_eq_of_alike h]
  exact hrefused

/-- **Plain lines influence no fault.** -/
theorem Plan.ofLines_eq_error_of_alike (h : List.Forall₂ Line.Alike lines lines')
    {e : LineFault} (he : ofLines settings lines = .error e) :
    ofLines settings lines' = .error e := by
  rcases ofLines_eq_error_iff.1 he with hrun | ⟨hd, ho, htext, hcause⟩
  · exact ofLines_eq_error_iff.2 (.inl (Draft.ofLines_eq_error_of_alike h hrun))
  · -- the line at fault opens a block
    have hne : Line.ofString e.text ≠ .ok .plain := by
      intro hplain
      obtain ⟨indent, henter⟩ := enter_of_mem_openers (List.mem_of_getLast? ho)
      rw [getElem?_outline htext, Line.read_of_ofString hplain] at henter
      cases henter
    refine ofLines_eq_error_iff.2 (.inr ⟨Draft.exists_ofLines_of_alike h hd, ?_, ?_, hcause⟩)
    · rwa [← outline_eq_of_alike h]
    · exact getElem?_of_alike h htext hne

/-! ## Records -/

/-- The records are the same but for their uses. -/
structure Ledger.Agrees (l l' : Ledger) : Prop where
  size : l.size = l'.size
  rows : ∀ r row, l.get? r = some row → ∃ used, l'.get? r = some { row with binding.used := used }

theorem Ledger.Agrees.binding? {l l' : Ledger} (h : l.Agrees l') {r : Ref} {v : Binding}
    (hv : l.binding? r = some v) : ∃ used, l'.binding? r = some { v with used } := by
  obtain ⟨row, hrow, rfl⟩ := Option.map_eq_some_iff.1 hv
  obtain ⟨used, hrow'⟩ := h.rows r row hrow
  exact ⟨used, by rw [Ledger.binding?, hrow']; rfl⟩

/-- **Documents with one outline** have the same records but for their uses. -/
theorem Draft.Tracks.agrees {d d' : Draft} (ht : Tracks lines d) (ht' : Tracks lines' d')
    (ho : outline lines = outline lines') : d.ledger.Agrees d'.ledger := by
  refine ⟨by rw [ht.size, ht'.size, ho], fun r row hrow => ?_⟩
  obtain ⟨b, hb⟩ := ht.owned (Ledger.lt_size_of_get? hrow)
  obtain ⟨before, name, tag, used, hp, hget⟩ := ht.get?_of_mem_records hb
  rw [hrow, Option.some.injEq] at hget
  subst hget
  rw [ho] at hp ⊢
  exact ht'.rows hp

namespace Plan

variable {p p' : Plan} {n : Nat} {line : String}

/-- What a name of a plain line stands for shows the same binding in both documents: in both it is
used. -/
theorem binding?_resolve?_of_alike (h : List.Forall₂ Line.Alike lines lines')
    (hp : ofLines settings lines = .ok p) (hp' : ofLines settings lines' = .ok p')
    (hagrees : p.ledger.Agrees p'.ledger) (hn : lines[n]? = some line)
    (hn' : lines'[n]? = some line) (hplain : Line.read line = .plain) {name : String}
    (hname : name ∈ names line) :
    (resolve? (outline (lines.take n)) name).bind p.ledger.binding? =
      (resolve? (outline (lines.take n)) name).bind p'.ledger.binding? := by
  have ho := outline_take_eq_of_alike h n
  cases hr : resolve? (outline (lines.take n)) name with
  | none => rfl
  | some r =>
    obtain ⟨b, hi, hs⟩ := resolve?_eq_some_iff.1 hr
    obtain ⟨v, hv, -, -, hu⟩ := binding?_of_standing hp hn hplain hi hname hs
    rw [ho] at hi hs
    obtain ⟨v', hv', -, -, hu'⟩ := binding?_of_standing hp' hn' hplain hi hname hs
    obtain ⟨used, hagree⟩ := hagrees.binding? hv
    obtain rfl : v' = { v with used } := Option.some.inj (hv'.symm.trans hagree)
    obtain rfl : used = true := hu'
    show p.ledger.binding? r = p'.ledger.binding? r
    rw [hv, hv', ← hu]

/-- **A plain line that both documents have** is written the same. -/
theorem written_of_alike (h : List.Forall₂ Line.Alike lines lines')
    (hp : ofLines settings lines = .ok p) (hp' : ofLines settings lines' = .ok p')
    (hagrees : p.ledger.Agrees p'.ledger) (hn : lines[n]? = some line)
    (hn' : lines'[n]? = some line) (hplain : Line.read line = .plain) (g : Dialect) :
    ∃ out, (p.writtenLines g)[n]? = some out ∧ (p'.writtenLines g)[n]? = some out := by
  have hentry := get?_script_of_plain hp hn hplain
  have hentry' := get?_script_of_plain hp' hn' hplain
  rw [← outline_take_eq_of_alike h] at hentry'
  refine ⟨_, by rw [getElem?_writtenLines, hentry]; rfl, ?_⟩
  rw [getElem?_writtenLines, hentry', Option.map_some, written_plain_usesAfter,
    written_plain_usesAfter]
  refine congrArg (fun cs => some (String.ofList cs)) (List.flatMap_congr fun piece hpiece => ?_)
  cases piece with
  | other c => rfl
  | name t =>
    dsimp only
    rw [binding?_resolve?_of_alike h hp hp' hagrees hn hn' hplain (mem_names_of_mem_pieces hpiece)]

end Plan

end

/-! ## Documents -/

namespace Plan

/-- **Plain lines influence nothing but uses.** Let two documents differ in their plain lines alone.
They are refused for the same fault. If they are accepted, their records agree but for the uses;
their directives have the same entries, unless unused bindings are hidden; and every plain line that
both of them have is written the same. -/
theorem ofText_of_alike {text text' : String}
    (h : List.Forall₂ Line.Alike (lines text) (lines text')) (settings : Settings) :
    (∀ e, ofText settings text = .error e ↔ ofText settings text' = .error e) ∧
    ∀ p p', ofText settings text = .ok p → ofText settings text' = .ok p' →
      p.ledger.Agrees p'.ledger ∧
      (settings.hideUnused = false → ∀ n line, (lines text)[n]? = some line →
        Line.ofString line ≠ .ok .plain → ∃ indent mark refs,
          p.script.get? n = some ⟨indent, .marked mark refs⟩ ∧
          p'.script.get? n = some ⟨indent, .marked mark refs⟩) ∧
      ∀ (g : Dialect) (n : Nat) (line : String), (lines text)[n]? = some line →
        (lines text')[n]? = some line → Line.ofString line = .ok .plain →
        ∃ out, (p.writtenLines g)[n]? = some out ∧ (p'.writtenLines g)[n]? = some out := by
  refine ⟨fun e => ⟨ofLines_eq_error_of_alike h, ofLines_eq_error_of_alike (alike_symm h)⟩, ?_⟩
  intro p p' hp hp'
  have hagrees : p.ledger.Agrees p'.ledger := by
    obtain ⟨d, ht, -, rfl⟩ := exists_tracks hp
    obtain ⟨d', ht', -, rfl⟩ := exists_tracks hp'
    exact ht.agrees ht' (outline_eq_of_alike h)
  refine ⟨hagrees, ?_, ?_⟩
  · intro hs n line hn hplain
    have hl : Line.read line ≠ .plain := by
      obtain ⟨l, hl, -⟩ := (exists_ofLines_iff.1 ⟨p, hp⟩).2 n line hn
      rw [hl] at hplain
      rw [Line.read_of_ofString hl]
      exact fun heq => hplain (congrArg Except.ok heq)
    obtain ⟨mark, hmark⟩ := Option.ne_none_iff_exists'.1 (mt Line.mark?_eq_none_iff.1 hl)
    obtain ⟨refs, hentry⟩ := exists_entryOf_of_mark? (outline (lines text)) n line hmark
    refine ⟨(Line.read line).indent, mark, refs, ?_, ?_⟩
    · rw [get?_script hp hn, hs, ← hentry]
      rfl
    · rw [get?_script hp' (getElem?_of_alike h hn hplain), hs, ← hentry, outline_eq_of_alike h]
      rfl
  · intro g n line hn hn' hplain
    exact written_of_alike h hp hp' hagrees hn hn' (Line.read_of_ofString hplain) g

theorem ofText_of_alike_samples :
    (∃ p p' out, ofText {} "~begin\n~def x:int y\nx = 1;\ny;\n~end" = .ok p ∧
      ofText {} "~begin\n~def x:int y\n~ defx y;\ny;\n~end" = .ok p' ∧
      p.ledger.Agrees p'.ledger ∧
      (p.writtenLines {})[3]? = some out ∧ (p'.writtenLines {})[3]? = some out) ∧
    ofText {} "y\n~end" = .error ⟨.unbalanced .unopened, 1, "~end"⟩ := by
  constructor
  · have hlines : lines "~begin\n~def x:int y\nx = 1;\ny;\n~end" =
        ["~begin", "~def x:int y", "x = 1;", "y;", "~end"] := by decide +kernel
    have hlines' : lines "~begin\n~def x:int y\n~ defx y;\ny;\n~end" =
        ["~begin", "~def x:int y", "~ defx y;", "y;", "~end"] := by decide +kernel
    have halike : List.Forall₂ Line.Alike (lines "~begin\n~def x:int y\nx = 1;\ny;\n~end")
        (lines "~begin\n~def x:int y\n~ defx y;\ny;\n~end") := by
      rw [hlines, hlines']
      have hplain : Line.ofString "x = 1;" = .ok .plain ∧
          Line.ofString "~ defx y;" = .ok .plain := by decide +kernel
      exact .cons (.inl rfl) (.cons (.inl rfl) (.cons (.inr hplain)
        (.cons (.inl rfl) (.cons (.inl rfl) .nil))))
    have hok : (ofText {} "~begin\n~def x:int y\nx = 1;\ny;\n~end").isOk = true := by
      decide +kernel
    have hok' : (ofText {} "~begin\n~def x:int y\n~ defx y;\ny;\n~end").isOk = true := by
      decide +kernel
    cases hp : ofText {} "~begin\n~def x:int y\nx = 1;\ny;\n~end" with
    | error e => rw [hp] at hok; cases hok
    | ok p =>
      cases hp' : ofText {} "~begin\n~def x:int y\n~ defx y;\ny;\n~end" with
      | error e => rw [hp'] at hok'; cases hok'
      | ok p' =>
        obtain ⟨hagrees, -, hwritten⟩ := (ofText_of_alike halike {}).2 p p' hp hp'
        obtain ⟨out, hout, hout'⟩ :=
          hwritten {} 3 "y;" (by rw [hlines]; rfl) (by rw [hlines']; rfl) (by decide +kernel)
        exact ⟨p, p', out, rfl, rfl, hagrees, hout, hout'⟩
  · have halike : List.Forall₂ Line.Alike (lines "x\n~end") (lines "y\n~end") := by
      have hlines : lines "x\n~end" = ["x", "~end"] := by decide +kernel
      have hlines' : lines "y\n~end" = ["y", "~end"] := by decide +kernel
      rw [hlines, hlines']
      exact .cons (.inr (by decide +kernel)) (.cons (.inl rfl) .nil)
    exact ((ofText_of_alike halike {}).1 _).1 (by decide +kernel)

end Plan

end BlockSlots
