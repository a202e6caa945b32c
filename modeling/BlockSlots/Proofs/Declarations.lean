import BlockSlots.Proofs.Payload
import BlockSlots.Proofs.Releases

/-!
# Declared once, released at most once

The ledger lists the items of all declarations of a document in their order, and the entries of the
declarations list its records in order, each once. A release lists one binding for each of its
names: the latest declaration of the name in the block that was not released before. So no binding
is listed by two releases.

* `Step.labels`, `labels_ofLines`: the items of the declarations are the labels of the records.
* `Tracks.listed_declare`, `Tracks.listed_release`: what the entries list, line after line.
* `Tracks.latest_of_release`: what a release lists for a name.
* `declared_and_released_once`: all of it, for every document that is accepted.
-/

set_option autoImplicit false

namespace BlockSlots

open Text

/-! ## Labels -/

/-- The items that a line declares. -/
def Line.items : Line → List ListItem
  | .declare _ items => items
  | _ => []

/-- The name and the type tag of an item. -/
def ListItem.label (item : ListItem) : String × String := (item.name, item.tag)

/-- The names and type tags of the records, in the order of declaration. -/
def Ledger.labels (l : Ledger) : List (String × String) :=
  l.rows.toList.map fun row => (row.binding.name, row.binding.tag)

theorem Ledger.getElem?_labels (l : Ledger) (r : Ref) :
    l.labels[r]? = (l.get? r).map fun row => (row.binding.name, row.binding.tag) := by
  rw [labels, List.getElem?_map, Array.getElem?_toList]
  rfl

theorem Ledger.labels_push (l : Ledger) (row : Row) :
    (l.push row).labels = l.labels ++ [(row.binding.name, row.binding.tag)] := by
  simp [labels, push]

theorem Ledger.labels_foldl_noteUse (l : Ledger) (refs : List Ref) :
    (refs.foldl noteUse l).labels = l.labels := by
  refine List.ext_getElem? fun r => ?_
  rw [getElem?_labels, getElem?_labels, get?_foldl_noteUse, Option.map_map]
  refine congrArg (Option.map · _) (funext fun row => ?_)
  rw [Function.comp_apply]
  split <;> rfl

namespace Draft

theorem labels_bindAll (ledger : Ledger) (block : Block) (items : List ListItem) :
    (bindAll ledger block items).1.labels = ledger.labels ++ items.map ListItem.label := by
  induction items generalizing ledger block with
  | nil => exact (List.append_nil _).symm
  | cons item items ih =>
    rw [bindAll_cons, ih, Block.bind, Ledger.labels_push, List.append_assoc]
    rfl

section
variable {settings : Settings} {lines : List String} {line : String} {d d' : Draft}

/-- A line adds the items that it declares. -/
theorem Step.labels {l : Line} (hs : Step settings d line l d') :
    d'.ledger.labels = d.ledger.labels ++ l.items.map ListItem.label := by
  cases hs with
  | enter indent => exact (List.append_nil _).symm
  | leave indent ho => exact (List.append_nil _).symm
  | declare indent ho hitems => exact labels_bindAll ..
  | release indent ho hnames => exact (List.append_nil _).symm
  | plain => exact (Ledger.labels_foldl_noteUse ..).trans (List.append_nil _).symm

/-- **The ledger lists what is declared**, in the order of declaration. -/
theorem labels_ofLines (h : ofLines settings lines = .ok d) :
    d.ledger.labels = (outline lines).flatMap fun l => l.items.map ListItem.label := by
  induction lines using List.reverseRecOn generalizing d with
  | nil => cases h; rfl
  | append_singleton lines line ih =>
    obtain ⟨d₀, d₁, hd₀, htake, rfl⟩ := ofLines_concat_eq_ok h
    obtain ⟨l, hl, hs⟩ := take_eq_ok_iff.1 htake
    show d₁.ledger.labels = _
    rw [hs.labels, ih hd₀, outline_append, List.flatMap_append, ← Line.read_of_ofString hl]
    simp [outline]

end

end Draft

/-! ## What the entries list -/

/-- The bindings that an entry with the given mark lists. -/
def Entry.listed (mark : Mark) (e : Entry) : List Ref :=
  match e.content with
  | .marked mark' refs => if mark' = mark then refs else []
  | .plain .. => []

@[simp] theorem Entry.listed_marked (indent : String) (mark : Mark) (refs : List Ref) :
    Entry.listed mark ⟨indent, .marked mark refs⟩ = refs :=
  if_pos rfl

/-- The bindings that the first `n` entries list, as far as they have the given mark. -/
def Script.listed (s : Script) (mark : Mark) (n : Nat) : List Ref :=
  (s.entries.toList.take n).flatMap (Entry.listed mark)

theorem Script.listed_succ {s : Script} {n : Nat} {e : Entry} (h : s.get? n = some e)
    (mark : Mark) : s.listed mark (n + 1) = s.listed mark n ++ e.listed mark := by
  have hget : s.entries.toList[n]? = some e := Array.getElem?_toList.trans h
  rw [listed, listed, List.take_add_one, hget, List.flatMap_append]
  simp

theorem listed_entryOf_declare (ls : List Line) (k : Nat) (text : String) (l : Line) :
    (entryOf ls k text l).listed .declare = List.range' (declared (ls.take k)) l.declares := by
  cases l <;> simp [entryOf, Entry.listed, Line.declares]

theorem listed_entryOf_release (ls : List Line) (k : Nat) (text : String) (l : Line) :
    (entryOf ls k text l).listed .release = l.frees (ls.take k) := by
  cases hi : innermost? (ls.take k) with
  | none => cases l <;> simp [entryOf, Entry.listed, Line.frees, hi]
  | some b =>
    cases l <;> simp [entryOf, Entry.listed, Line.frees, hi, Line.acts, releases, blockAt,
      Block.released_ofActs]

/-- Line `m` stands directly in block `b`, and its entry declares record `r`. -/
def Script.DeclaresIn (s : Script) (lines : List String) (b m : Nat) (r : Ref) : Prop :=
  innermost? (outline (lines.take m)) = some b ∧
    ∃ indent refs, s.get? m = some ⟨indent, .marked .declare refs⟩ ∧ r ∈ refs

/-- Of the declarations of `name` on the first `n` lines, directly in block `b`, that are not gone,
`r` is the latest. -/
structure Plan.Latest (p : Plan) (lines : List String) (n b : Nat) (gone : List Ref) (name : String)
    (r : Ref) : Prop where
  named : ∃ v, p.ledger.binding? r = some v ∧ v.name = name
  declared : ∃ m < n, p.script.DeclaresIn lines b m r
  remains : r ∉ gone
  latest : ∀ s v m, m < n → p.script.DeclaresIn lines b m s → p.ledger.binding? s = some v →
    v.name = name → s ∉ gone → s ≤ r

namespace Draft

variable {lines : List String} {d : Draft} {b n : Nat} {r : Ref}

/-- What is told from the lines in front and grows with each line by what its entry lists is what
the entries list. -/
theorem Tracks.listed_eq (ht : Tracks lines d) {mark : Mark} {f : List Line → List Ref}
    (hnil : f [] = [])
    (hconcat : ∀ k text, lines[k]? = some text →
      f ((outline lines).take k ++ [Line.read text]) = f ((outline lines).take k) ++
        (entryOf (outline lines) k text (Line.read text)).listed mark) (hn : n ≤ lines.length) :
    d.script.listed mark n = f (outline (lines.take n)) := by
  induction n with
  | zero => exact hnil.symm
  | succ n ih =>
    have hk : lines[n]? = some lines[n] := List.getElem?_eq_getElem hn
    have hnext : outline (lines.take (n + 1)) = (outline lines).take n ++ [Line.read lines[n]] := by
      rw [List.take_succ_eq_append_getElem hn, outline_append, outline_take]
      rfl
    rw [Script.listed_succ (ht.entries hk), ih (Nat.le_of_lt hn), outline_take, hnext,
      hconcat n _ hk]

/-- **The declarations list the records in order**, each once. -/
theorem Tracks.listed_declare (ht : Tracks lines d) (hn : n ≤ lines.length) :
    d.script.listed .declare n = List.range (declared (outline (lines.take n))) := by
  refine ht.listed_eq (f := fun ls => List.range (declared ls)) rfl (fun k text _ => ?_) hn
  have hsplit := @List.range'_append_1 0 (declared ((outline lines).take k))
    (Line.read text).declares
  rw [Nat.zero_add, ← List.range_eq_range', ← List.range_eq_range'] at hsplit
  rw [listed_entryOf_declare, declared_concat, hsplit]

/-- **The releases list what is released**, in the order of release. -/
theorem Tracks.listed_release (ht : Tracks lines d) (hn : n ≤ lines.length) :
    d.script.listed .release n = freed (outline (lines.take n)) := by
  refine ht.listed_eq rfl (fun k text _ => ?_) hn
  rw [listed_entryOf_release, freed_concat]

/-! ## Declarations in a block -/

theorem Tracks.declaresIn_iff (ht : Tracks lines d) {m : Nat} :
    d.script.DeclaresIn lines b m r ↔ ∃ l, (outline lines)[m]? = some l ∧
      innermost? ((outline lines).take m) = some b ∧
        r ∈ List.range' (declared ((outline lines).take m)) l.declares := by
  rw [Script.DeclaresIn, outline_take]
  refine ⟨fun h => ?_, fun h => ?_⟩
  · obtain ⟨hi, indent, refs, he, hr⟩ := h
    obtain ⟨text, htext, hentry⟩ := ht.exists_entryOf he
    have hlisted := listed_entryOf_declare (outline lines) m text (Line.read text)
    rw [hentry, Entry.listed_marked] at hlisted
    exact ⟨_, getElem?_outline htext, hi, hlisted ▸ hr⟩
  · obtain ⟨l, hl, hi, hr⟩ := h
    obtain ⟨text, htext, rfl⟩ := Option.map_eq_some_iff.1 ((List.getElem?_map ..).symm.trans hl)
    have hentry := ht.entries htext
    cases hread : Line.read text with
    | declare indent items =>
      rw [hread] at hr hentry
      exact ⟨hi, indent, _, hentry, hr⟩
    | _ =>
      rw [hread] at hr
      cases hr

theorem Tracks.mem_records_iff (ht : Tracks lines d) :
    r ∈ records (history (outline (lines.take n)) b) ↔
      ∃ m < n, d.script.DeclaresIn lines b m r := by
  rw [mem_records_history_iff, outline_take]
  simp only [ht.declaresIn_iff, List.getElem?_take, List.take_take]
  refine ⟨fun h => ?_, fun h => ?_⟩
  · obtain ⟨m, l, hl, hi, hr⟩ := h
    split at hl
    · next hlt =>
      rw [Nat.min_eq_left (Nat.le_of_lt hlt)] at hi hr
      exact ⟨m, hlt, l, hl, hi, hr⟩
    · cases hl
  · obtain ⟨m, hlt, l, hl, hi, hr⟩ := h
    refine ⟨m, l, by rwa [if_pos hlt], ?_⟩
    rw [Nat.min_eq_left (Nat.le_of_lt hlt)]
    exact ⟨hi, hr⟩

/-- A record shows the name that it binds in its block. -/
theorem Tracks.exists_bind_iff (ht : Tracks lines d) {name : String} :
    (∃ tag, .bind r name tag ∈ history (outline (lines.take n)) b) ↔
      r ∈ records (history (outline (lines.take n)) b) ∧
        ∃ v, d.ledger.binding? r = some v ∧ v.name = name := by
  have hrow : ∀ {name tag}, .bind r name tag ∈ history (outline (lines.take n)) b →
      ∃ v, d.ledger.binding? r = some v ∧ v.name = name := by
    intro name tag hm
    obtain ⟨before, after, hsplit⟩ := List.append_of_mem hm
    have hp : before ++ [.bind r name tag] <+: history (outline (lines.take n)) b :=
      ⟨after, by rw [hsplit, List.append_assoc]; rfl⟩
    rw [outline_take] at hp
    obtain ⟨used, hget⟩ := ht.rows (hp.trans (history_take_isPrefix _ n b))
    exact ⟨_, by rw [Ledger.binding?, hget]; rfl, rfl⟩
  refine ⟨fun h => ?_, fun h => ?_⟩
  · obtain ⟨tag, hm⟩ := h
    exact ⟨mem_records.2 ⟨name, tag, hm⟩, hrow hm⟩
  · obtain ⟨hr, v, hv, hname⟩ := h
    obtain ⟨name', tag, hm⟩ := mem_records.1 hr
    obtain ⟨v', hv', hname'⟩ := hrow hm
    rw [hv, Option.some.injEq] at hv'
    subst hv'
    exact ⟨tag, hname ▸ hname' ▸ hm⟩

/-! ## Releases in a block -/

/-- **What a release lists for a name**: the latest declaration of the name in the block that was
not released, neither by a line in front nor for the names in front. -/
theorem Tracks.latest_of_release (ht : Tracks lines d) (hn : n ≤ lines.length)
    {names : List String} (hnames : Releasable (history (outline (lines.take n)) b) names)
    {refs : List Ref}
    (hrefs : refs = releases (history (outline (lines.take n)) b) (names.map .unbind)) {j : Nat}
    {name : String} (hj : names[j]? = some name) (hr : refs[j]? = some r) :
    Plan.Latest ⟨d.ledger, d.script⟩ lines n b (d.script.listed .release n ++ refs.take j) name
      r := by
  subst hrefs
  obtain ⟨⟨hbind, hremains⟩, hlast⟩ :=
    latest_of_getElem?_releases (pairwise_records _ b) hnames hj hr
  obtain ⟨hmem, hnamed⟩ := ht.exists_bind_iff.1 hbind
  -- of the records of the block, those released by a line in front were released in the block
  have hfreed : ∀ {s}, s ∈ records (history (outline (lines.take n)) b) →
      (s ∈ d.script.listed .release n ↔
        s ∈ releases [] (history (outline (lines.take n)) b)) := by
    intro s hs
    rw [ht.listed_release hn]
    exact mem_freed_iff_of_mem_records hs
  refine { named := hnamed, declared := ht.mem_records_iff.1 hmem, remains := ?_,
           latest := fun s v m hm hs hv hname hgone => ?_ }
  · rwa [List.mem_append, hfreed hmem, ← List.mem_append]
  · have hsmem := ht.mem_records_iff.2 ⟨m, hm, hs⟩
    obtain ⟨tag, hstag⟩ := ht.exists_bind_iff.2 ⟨hsmem, v, hv, hname⟩
    rw [List.mem_append, hfreed hsmem, ← List.mem_append] at hgone
    exact hlast s tag hstag hgone

/-! ## The ends of a block -/

theorem Tracks.exists_declaresIn (ht : Tracks lines d)
    (hr : r ∈ records (history (outline lines) b)) : ∃ m, d.script.DeclaresIn lines b m r := by
  rw [← List.take_length (l := lines)] at hr
  obtain ⟨m, -, hm⟩ := ht.mem_records_iff.1 hr
  exact ⟨m, hm⟩

theorem Tracks.mem_records_of_enter (ht : Tracks lines d) {k : Nat} {indent : String}
    {refs : List Ref} (h : d.script.get? k = some ⟨indent, .marked .enter refs⟩) (hr : r ∈ refs) :
    r ∈ records (history (outline lines) k) := by
  obtain ⟨text, -, hentry⟩ := ht.exists_entryOf h
  cases hl : Line.read text with
  | enter indent' =>
    rw [hl] at hentry
    cases hentry
    split at hr
    · cases hr
    · exact mem_records_of_mem_refs hr
  | _ =>
    rw [hl] at hentry
    cases hentry

theorem Tracks.closes_of_leave (ht : Tracks lines d) {k : Nat} {indent : String}
    {refs : List Ref} (h : d.script.get? k = some ⟨indent, .marked .leave refs⟩)
    (hi : innermost? (outline (lines.take k)) = some b) :
    Closes (outline lines) b k ∧ ∀ r ∈ refs, r ∈ records (history (outline lines) b) := by
  obtain ⟨text, htext, hentry⟩ := ht.exists_entryOf h
  rw [outline_take] at hi
  cases hl : Line.read text with
  | leave indent' =>
    rw [hl] at hentry
    cases hentry
    refine ⟨closes_iff.2 ⟨⟨indent, hl ▸ getElem?_outline htext⟩, hi⟩, fun r hr => ?_⟩
    rw [hi] at hr
    have hfront := history_take_isPrefix (outline lines) k b
    exact (hfront.filterMap Act.ref?).subset (mem_records_of_mem_refs hr)
  | _ =>
    rw [hl] at hentry
    cases hentry

end Draft

/-- **Each binding is declared once and released at most once.** For a document that is accepted
with nothing hidden: the ledger lists the items of all declarations, in their order; the
declarations list its records in order, each once; the releases list no record twice; a release
lists, for each of its names, the latest declaration of the name directly in its block that was not
released before; and what the ends of a block list was declared directly in the block. -/
theorem Plan.declared_and_released_once {settings : Settings} (hs : settings.hideUnused = false)
    {text : String} {p : Plan} (h : Plan.ofText settings text = .ok p) :
    p.ledger.labels = (outline (Text.lines text)).flatMap (fun l => l.items.map ListItem.label) ∧
    p.script.listed .declare p.script.size = List.range p.ledger.size ∧
    (p.script.listed .release p.script.size).Nodup ∧
    (∀ n line indent names, (Text.lines text)[n]? = some line →
      Line.ofString line = .ok (.release indent names) →
      ∃ b refs, innermost? (outline ((Text.lines text).take n)) = some b ∧
        p.script.get? n = some ⟨indent, .marked .release refs⟩ ∧ refs.length = names.length ∧
        ∀ j name r, names[j]? = some name → refs[j]? = some r →
          p.Latest (Text.lines text) n b (p.script.listed .release n ++ refs.take j) name r) ∧
    (∀ k indent refs, p.script.get? k = some ⟨indent, .marked .enter refs⟩ →
      ∀ r ∈ refs, ∃ m, p.script.DeclaresIn (Text.lines text) k m r) ∧
    ∀ k indent refs, p.script.get? k = some ⟨indent, .marked .leave refs⟩ →
      ∃ b, Closes (outline (Text.lines text)) b k ∧
        ∀ r ∈ refs, ∃ m, p.script.DeclaresIn (Text.lines text) b m r := by
  have hadmits := (Plan.exists_ofLines_iff.1 ⟨p, h⟩).2
  obtain ⟨d, hd, -, rfl⟩ := Plan.ofLines_eq_ok_iff.1 h
  have ht := Draft.tracks_ofLines hd
  rw [hs]
  refine ⟨Draft.labels_ofLines hd, ?_, ?_, fun n line indent names hn hline => ?_,
    fun k indent refs he r hr => ?_, fun k indent refs he => ?_⟩
  · show d.script.listed _ d.script.size = List.range d.ledger.size
    rw [ht.listed_declare (Nat.le_of_eq ht.length), ht.length, List.take_length, ht.size]
  · show (d.script.listed _ d.script.size).Nodup
    rw [ht.listed_release (Nat.le_of_eq ht.length)]
    exact nodup_freed _
  · obtain ⟨l, hl, hadmitted⟩ := hadmits n line hn
    obtain rfl := Except.ok.inj (hl.symm.trans hline)
    rw [← outline_take] at hadmitted
    obtain ⟨b, hi, hnames⟩ := hadmitted
    have hentry := ht.entries hn
    rw [Line.read_of_ofString hline, entryOf, ← outline_take, hi] at hentry
    refine ⟨b, _, hi, hentry, ?_, fun j name r hj hr => ?_⟩
    · exact (congrArg List.length (Block.released_ofActs ..)).trans (length_releases hnames)
    · have hlt := (List.getElem?_eq_some_iff.1 hn).1
      exact ht.latest_of_release (Nat.le_of_lt hlt) hnames (Block.released_ofActs ..) hj hr
  · exact ht.exists_declaresIn (ht.mem_records_of_enter he hr)
  · obtain ⟨line, hline, hentry⟩ := ht.exists_entryOf he
    obtain ⟨l, hl, hadmitted⟩ := hadmits k line hline
    rw [Line.read_of_ofString hl] at hentry
    cases l with
    | leave indent' =>
      obtain ⟨b, hi⟩ := Option.ne_none_iff_exists'.1 hadmitted
      rw [← outline_take] at hi
      obtain ⟨hcloses, hrecords⟩ := ht.closes_of_leave he hi
      exact ⟨b, hcloses, fun r hr => ht.exists_declaresIn (hrecords r hr)⟩
    | _ => cases hentry

theorem Plan.declared_and_released_once_sample : ∃ p,
    Plan.ofText { hideUnused := false } Plan.sample = .ok p ∧
    p.script.listed .declare p.script.size = List.range p.ledger.size ∧
    ∃ refs, p.script.get? 6 = some ⟨"", .marked .release refs⟩ ∧ refs.length = 2 ∧
      ∀ r, refs[1]? = some r →
        p.Latest (Text.lines Plan.sample) 6 0 (p.script.listed .release 6 ++ refs.take 1) "y"
          r := by
  have hline : Line.ofString "~undef x y" = .ok (.release "" ["x", "y"]) := by decide +kernel
  have hok : (Plan.ofText { hideUnused := false } Plan.sample).isOk = true := by decide +kernel
  have hi : innermost? (outline ((Text.lines Plan.sample).take 6)) = some 0 := by decide +kernel
  cases hp : Plan.ofText { hideUnused := false } Plan.sample with
  | error e => rw [hp] at hok; cases hok
  | ok p =>
    obtain ⟨-, hdeclare, -, hreleases, -, -⟩ := Plan.declared_and_released_once rfl hp
    obtain ⟨b, refs, hb, he, hrefs, hlatest⟩ :=
      hreleases 6 "~undef x y" "" ["x", "y"] (by decide +kernel) hline
    obtain rfl := Option.some.inj (hi.symm.trans hb)
    exact ⟨p, rfl, hdeclare, refs, he, hrefs, fun r hr => hlatest 1 "y" r rfl hr⟩

end BlockSlots
