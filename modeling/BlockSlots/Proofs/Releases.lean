import BlockSlots.Proofs.Admission
import Mathlib.Data.List.Nodup

/-!
# What is released

Every release is matched with one declaration, and no two with the same. So the declarations of a
name that no release is matched with are those that were not released, and the name stands for the
last of them.

* `mem_standing_iff`, `head?_standing_iff`: what a name stands for, by what was released.
* `nodup_releases`: nothing is released twice.
* `getElem?_releases`, `latest_of_getElem?_releases`: the names of a list are released one after the
  other.
* `nodup_freed`: also not in a whole document, for a record belongs to one block.
-/

set_option autoImplicit false

namespace BlockSlots

/-! ## Acts -/

/-- The record that an act after the acts `before` releases. -/
def Act.freed? (before : List Act) : Act → Option Ref
  | .bind _ _ _ => none
  | .unbind name => (standing name before).head?

/-- The records that acts after the acts `before` release, in the order of release. -/
def releases (before : List Act) : List Act → List Ref
  | [] => []
  | a :: acts => (a.freed? before).toList ++ releases (before ++ [a]) acts

theorem releases_append (before acts more : List Act) :
    releases before (acts ++ more) = releases before acts ++ releases (before ++ acts) more := by
  induction acts generalizing before with
  | nil => simp [releases]
  | cons a acts ih => simp [releases, ih]

@[simp] theorem releases_concat (before acts : List Act) (a : Act) :
    releases before (acts ++ [a]) = releases before acts ++ (a.freed? (before ++ acts)).toList := by
  simp [releases_append, releases]

@[simp] theorem releases_bindActs (before : List Act) (ref : Ref) (items : List ListItem) :
    releases before (bindActs ref items) = [] := by
  induction items generalizing before ref with
  | nil => rfl
  | cons item items ih =>
    rw [bindActs, releases, ih]
    rfl

theorem mem_releases_iff {acts : List Act} {r : Ref} : r ∈ releases [] acts ↔ Releases acts r := by
  induction acts using List.reverseRecOn with
  | nil =>
    refine ⟨fun h => (by cases h), fun h => ?_⟩
    obtain ⟨before, name, hp, -⟩ := h
    have hnil := List.prefix_nil.1 hp
    simp at hnil
  | append_singleton acts a ih =>
    rw [releases_concat, List.mem_append, ih, List.nil_append, Option.mem_toList]
    refine ⟨fun h => ?_, fun h => ?_⟩
    · rcases h with h | h
      · exact h.mono (List.prefix_append _ _)
      · cases a with
        | bind ref name tag => cases h
        | unbind name => exact ⟨acts, name, List.prefix_rfl, h⟩
    · obtain ⟨before, name, hp, hs⟩ := h
      rcases List.prefix_concat_iff.1 hp with heq | hp
      · obtain ⟨rfl, hlast⟩ := List.append_inj' heq rfl
        cases hlast
        exact .inr hs
      · exact .inl ⟨before, name, hp, hs⟩

/-- What is released was declared. -/
theorem mem_records_of_releases {acts : List Act} {r : Ref} (h : r ∈ releases [] acts) :
    r ∈ records acts := by
  obtain ⟨before, name, hp, hs⟩ := mem_releases_iff.1 h
  have hfront : before <+: acts := (List.prefix_append _ _).trans hp
  exact (hfront.filterMap Act.ref?).subset (mem_records_of_standing (List.mem_of_mem_head? hs))

/-! ## What a name stands for -/

/-- What a name stands for is declared in the reverse order. -/
theorem reverse_standing_sublist (name : String) (acts : List Act) :
    (standing name acts).reverse.Sublist (records acts) := by
  induction acts using List.reverseRecOn with
  | nil => exact .slnil
  | append_singleton acts a ih =>
    rw [standing_concat, records_append]
    cases a with
    | bind ref n tag =>
      rw [Act.match]
      split
      · rw [List.reverse_cons]
        exact ih.append (.refl _)
      · exact List.sublist_append_of_sublist_left ih
    | unbind n =>
      rw [Act.match]
      split
      · exact ((List.tail_sublist _).reverse.trans ih).trans (List.sublist_append_left _ _)
      · exact List.sublist_append_of_sublist_left ih

theorem nodup_standing {acts : List Act} (h : (records acts).Nodup) (name : String) :
    (standing name acts).Nodup :=
  List.nodup_reverse.1 (h.sublist (reverse_standing_sublist name acts))

/-- A record binds one name. -/
theorem eq_of_bind_mem {acts : List Act} (h : (records acts).Nodup) {r : Ref}
    {name name' tag tag' : String} (hm : .bind r name tag ∈ acts)
    (hm' : .bind r name' tag' ∈ acts) : name = name' ∧ tag = tag' := by
  obtain ⟨before, after, rfl⟩ := List.append_of_mem hm
  have hsplit : records (before ++ .bind r name tag :: after) =
      records before ++ r :: records after := by
    rw [records_append]
    rfl
  rw [hsplit, List.nodup_middle, List.nodup_cons, List.mem_append, not_or] at h
  rcases List.mem_append.1 hm' with hb | hb
  · exact absurd (mem_records.2 ⟨_, _, hb⟩) h.1.1
  · rcases List.mem_cons.1 hb with heq | hb
    · rw [Act.bind.injEq] at heq
      exact ⟨heq.2.1.symm, heq.2.2.symm⟩
    · exact absurd (mem_records.2 ⟨_, _, hb⟩) h.1.2

/-- **What is bound to a name** was declared and not released. -/
theorem mem_standing_iff {acts : List Act} (h : (records acts).Nodup) {name : String} {r : Ref} :
    r ∈ standing name acts ↔ (∃ tag, .bind r name tag ∈ acts) ∧ r ∉ releases [] acts := by
  induction acts using List.reverseRecOn with
  | nil => simp [standing]
  | append_singleton acts a ih =>
    rw [records_append, List.nodup_append] at h
    obtain ⟨hacts, -, hdisjoint⟩ := h
    have ih := ih hacts
    rw [standing_concat, releases_concat, List.nil_append, List.mem_append, not_or,
      Option.mem_toList]
    cases a with
    | bind ref n tag =>
      -- what is released was declared by an act in front, and the record is new
      have hnew : ref ∉ releases [] acts := fun hm =>
        hdisjoint ref (mem_records_of_releases hm) ref (by simp [records, Act.ref?]) rfl
      by_cases hn : n = name
      · subst hn
        by_cases hr : r = ref
        · subst hr
          simp [Act.match, Act.freed?, hnew]
        · simp [Act.match, Act.freed?, ih, hr]
      · simp [Act.match, Act.freed?, ih, hn, Ne.symm hn]
    | unbind n =>
      have hbind : (∃ tag, .bind r name tag ∈ acts ++ [.unbind n]) ↔
          ∃ tag, .bind r name tag ∈ acts := by simp
      rw [hbind, ← and_assoc, ← ih, Act.match, Act.freed?]
      by_cases hn : n = name
      · subst hn
        have hnodup := nodup_standing hacts n
        rw [if_pos rfl]
        cases hs : standing n acts with
        | nil => simp
        | cons s rest =>
          rw [hs, List.nodup_cons] at hnodup
          rw [List.tail_cons, List.head?_cons, Option.some.injEq, List.mem_cons]
          refine ⟨fun hr => ⟨.inr hr, ?_⟩, fun hr => hr.1.resolve_left (Ne.symm hr.2)⟩
          intro heq
          exact hnodup.1 (heq ▸ hr)
      · -- what the other name stands for is not bound to this one
        have hother : r ∈ standing name acts → (standing n acts).head? ≠ some r := by
          intro hr hs
          obtain ⟨_, hm⟩ := bind_mem_of_standing hr
          obtain ⟨_, hm'⟩ := bind_mem_of_standing (List.mem_of_mem_head? hs)
          exact hn (eq_of_bind_mem hacts hm' hm).1
        rw [if_neg hn]
        exact ⟨fun hr => ⟨hr, hother hr⟩, And.left⟩

/-- **What a name stands for**: the latest declaration of it that was not released. -/
theorem head?_standing_iff {acts : List Act} (h : (records acts).Pairwise (· < ·)) {name : String}
    {r : Ref} : (standing name acts).head? = some r ↔
      ((∃ tag, .bind r name tag ∈ acts) ∧ r ∉ releases [] acts) ∧
        ∀ s tag, .bind s name tag ∈ acts → s ∉ releases [] acts → s ≤ r := by
  have hnodup : (records acts).Nodup := h.imp Nat.ne_of_lt
  have hsorted : (standing name acts).Pairwise (· > ·) :=
    List.pairwise_reverse.1 (h.sublist (reverse_standing_sublist name acts))
  rw [← mem_standing_iff hnodup]
  refine ⟨fun hs => ?_, fun hx => ?_⟩
  · refine ⟨List.mem_of_mem_head? hs, fun s tag hm hfreed => ?_⟩
    have hmem := (mem_standing_iff hnodup).2 ⟨⟨tag, hm⟩, hfreed⟩
    obtain ⟨rest, hrest⟩ := List.head?_eq_some_iff.1 hs
    rw [hrest] at hmem hsorted
    rcases List.mem_cons.1 hmem with rfl | hmem
    · exact Nat.le_refl _
    · exact Nat.le_of_lt ((List.pairwise_cons.1 hsorted).1 s hmem)
  · obtain ⟨hr, hlast⟩ := hx
    cases hs : standing name acts with
    | nil =>
      rw [hs] at hr
      cases hr
    | cons s rest =>
      rw [hs] at hr hsorted
      have hmem : s ∈ standing name acts := hs ▸ List.mem_cons_self
      obtain ⟨⟨tag, hm⟩, hfreed⟩ := (mem_standing_iff hnodup).1 hmem
      have hle := hlast s tag hm hfreed
      rcases List.mem_cons.1 hr with rfl | hr
      · rfl
      · exact absurd ((List.pairwise_cons.1 hsorted).1 r hr) (Nat.not_lt.2 hle)

/-- **Nothing is released twice.** -/
theorem nodup_releases {acts : List Act} (h : (records acts).Nodup) : (releases [] acts).Nodup := by
  induction acts using List.reverseRecOn with
  | nil => exact .nil
  | append_singleton acts a ih =>
    rw [records_append, List.nodup_append] at h
    rw [releases_concat, List.nil_append, List.nodup_append]
    refine ⟨ih h.1, ?_, fun r hr s hs heq => ?_⟩
    · cases a.freed? acts <;> simp
    · subst heq
      rw [Option.mem_toList] at hs
      cases a with
      | bind ref name tag => cases hs
      | unbind name =>
        exact ((mem_standing_iff h.1).1 (List.mem_of_mem_head? hs)).2 hr

/-! ## Lists of names -/

theorem releasable_append {acts : List Act} {names more : List String} :
    Releasable acts (names ++ more) ↔
      Releasable acts names ∧ Releasable (acts ++ names.map .unbind) more := by
  induction names generalizing acts with
  | nil => simp [Releasable]
  | cons name names ih => simp [Releasable, ih, and_assoc]

/-- One binding is released for each name. -/
theorem length_releases {acts : List Act} {names : List String} (h : Releasable acts names) :
    (releases acts (names.map .unbind)).length = names.length := by
  induction names generalizing acts with
  | nil => rfl
  | cons name names ih =>
    obtain ⟨hne, hrest⟩ := h
    obtain ⟨r, rest, hr⟩ := List.exists_cons_of_ne_nil hne
    simp [releases, Act.freed?, hr, ih hrest]

/-- **The names of a list are released one after the other.** For each of them it is the binding
that the name stands for after the names in front of it. -/
theorem getElem?_releases {acts : List Act} {names : List String} (h : Releasable acts names)
    {j : Nat} {name : String} (hj : names[j]? = some name) :
    (releases acts (names.map .unbind)).take j = releases acts ((names.take j).map .unbind) ∧
      (releases acts (names.map .unbind))[j]? =
        (standing name (acts ++ (names.take j).map .unbind)).head? := by
  obtain ⟨hlt, rfl⟩ := List.getElem?_eq_some_iff.1 hj
  -- the names in front of the name, the name itself, and the names after it
  have hsplit : names = names.take j ++ names[j] :: names.drop (j + 1) := by
    rw [← List.drop_eq_getElem_cons hlt, List.take_append_drop]
  have hfront := (releasable_append.1 (hsplit ▸ h)).1
  have hlength : (releases acts ((names.take j).map .unbind)).length = j := by
    rw [length_releases hfront, List.length_take]
    omega
  have hrest := (releasable_append.1 (hsplit ▸ h)).2
  rw [Releasable] at hrest
  obtain ⟨r, rest, hr⟩ := List.exists_cons_of_ne_nil hrest.1
  have hreleases : releases acts (names.map .unbind) =
      releases acts ((names.take j).map .unbind) ++ r ::
        releases (acts ++ (names.take j).map .unbind ++ [.unbind names[j]])
          ((names.drop (j + 1)).map .unbind) := by
    conv_lhs =>
      rw [hsplit, List.map_append, List.map_cons, releases_append, releases, Act.freed?, hr]
    rfl
  rw [hreleases, hr]
  refine ⟨List.take_left' hlength, ?_⟩
  rw [List.getElem?_append_right (Nat.le_of_eq hlength), hlength, Nat.sub_self]
  rfl

theorem records_append_unbinds (acts : List Act) (names : List String) :
    records (acts ++ names.map .unbind) = records acts := by
  have hunbinds : records (names.map Act.unbind) = [] := by
    refine List.filterMap_eq_nil_iff.2 fun a ha => ?_
    obtain ⟨name, -, rfl⟩ := List.mem_map.1 ha
    rfl
  rw [records_append, hunbinds, List.append_nil]

theorem bind_mem_append_unbinds {acts : List Act} {names : List String} {r : Ref}
    {name tag : String} :
    .bind r name tag ∈ acts ++ names.map .unbind ↔ .bind r name tag ∈ acts := by
  rw [List.mem_append]
  refine or_iff_left fun h => ?_
  obtain ⟨_, -, hu⟩ := List.mem_map.1 h
  cases hu

/-- **What is released for a name of a list**: the latest declaration of it that was not released,
neither by the acts in front of the list nor for the names in front in the list. -/
theorem latest_of_getElem?_releases {acts : List Act} (h : (records acts).Pairwise (· < ·))
    {names : List String} (hnames : Releasable acts names) {j : Nat} {name : String} {r : Ref}
    (hj : names[j]? = some name) (hr : (releases acts (names.map .unbind))[j]? = some r) :
    ((∃ tag, .bind r name tag ∈ acts) ∧
      r ∉ releases [] acts ++ (releases acts (names.map .unbind)).take j) ∧
    ∀ s tag, .bind s name tag ∈ acts →
      s ∉ releases [] acts ++ (releases acts (names.map .unbind)).take j → s ≤ r := by
  obtain ⟨htake, hget⟩ := getElem?_releases hnames hj
  have hlatest := (head?_standing_iff (by rwa [records_append_unbinds])).1 (hget.symm.trans hr)
  simp only [bind_mem_append_unbinds, releases_append, List.nil_append] at hlatest
  rw [htake]
  exact hlatest

theorem Block.released_ofActs (id : Nat) (acts : List Act) (names : List String) :
    (ofActs id acts).released names = releases acts (names.map .unbind) := by
  induction names generalizing acts with
  | nil => rfl
  | cons name names ih =>
    rw [released, visible?_ofActs, ← ofActs_concat, ih]
    rfl

/-! ## Lines -/

/-- The records that a line after the lines `ls` releases. -/
def Line.frees (ls : List Line) (l : Line) : List Ref :=
  (innermost? ls).elim [] fun b => releases (history ls b) (l.acts (declared ls))

/-- The records that some lines release, in the order of release. -/
def freed (ls : List Line) : List Ref := ls.zipIdx.flatMap fun p => p.1.frees (ls.take p.2)

theorem freed_concat (ls : List Line) (l : Line) : freed (ls ++ [l]) = freed ls ++ l.frees ls :=
  flatMap_prefixes_concat Line.frees ls l

theorem releases_history_concat (ls : List Line) (l : Line) (b : Nat) :
    releases [] (history (ls ++ [l]) b) =
      releases [] (history ls b) ++ if innermost? ls = some b then l.frees ls else [] := by
  rw [history_concat, releases_append]
  split
  · next hi => simp [Line.frees, hi]
  · simp [releases]

/-- What is released is released in some block. -/
theorem mem_freed_iff {ls : List Line} {r : Ref} :
    r ∈ freed ls ↔ ∃ b, r ∈ releases [] (history ls b) := by
  induction ls using List.reverseRecOn with
  | nil => simp [freed, history, releases]
  | append_singleton ls l ih =>
    simp only [freed_concat, releases_history_concat, List.mem_append, exists_or, ← ih]
    refine or_congr_right ⟨fun hr => ?_, fun hx => ?_⟩
    · cases hi : innermost? ls with
      | none =>
        rw [Line.frees, hi] at hr
        cases hr
      | some b => exact ⟨b, by rwa [if_pos rfl]⟩
    · obtain ⟨b, hr⟩ := hx
      split at hr
      · exact hr
      · cases hr

theorem mem_freed_iff_of_mem_records {ls : List Line} {b : Nat} {r : Ref}
    (hr : r ∈ records (history ls b)) : r ∈ freed ls ↔ r ∈ releases [] (history ls b) := by
  rw [mem_freed_iff]
  refine ⟨fun h => ?_, fun h => ⟨b, h⟩⟩
  obtain ⟨c, hc⟩ := h
  obtain rfl := eq_of_mem_records hr (mem_records_of_releases hc)
  exact hc

/-- **Nothing is released twice in a document.** -/
theorem nodup_freed (ls : List Line) : (freed ls).Nodup := by
  induction ls using List.reverseRecOn with
  | nil => exact .nil
  | append_singleton ls l ih =>
    rw [freed_concat]
    cases hi : innermost? ls with
    | none => simpa [Line.frees, hi] using ih
    | some b =>
      have hrecords : (records (history (ls ++ [l]) b)).Nodup :=
        (pairwise_records _ b).imp Nat.ne_of_lt
      have hblock := nodup_releases hrecords
      rw [releases_history_concat, if_pos hi, List.nodup_append] at hblock
      rw [List.nodup_append]
      refine ⟨ih, hblock.2.1, fun r hr s hs heq => ?_⟩
      subst heq
      -- a release in another block is one of another record
      obtain ⟨c, hc⟩ := mem_freed_iff.1 hr
      have hrc : r ∈ records (history (ls ++ [l]) c) := by
        rw [history_concat, records_append]
        exact List.mem_append_left _ (mem_records_of_releases hc)
      have hrb : r ∈ records (history (ls ++ [l]) b) := by
        apply mem_records_of_releases
        rw [releases_history_concat, if_pos hi]
        exact List.mem_append_right _ hs
      obtain rfl := eq_of_mem_records hrb hrc
      exact hblock.2.2 r hc r hs rfl

end BlockSlots
