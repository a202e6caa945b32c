import BlockSlots.Proofs.Lifetimes

/-!
# The order in which slots are listed

The listing of a block's slots can be told from its history. The live bindings come first, by name
in the order in which the names were first bound; a name that is released and bound again keeps its
place. Then come the released bindings whose slots are free, by type tag in the order in which the
type tags were first released. Under a name or a type tag the oldest comes first.

* `tagOf?`: the type tag that a record was declared with.
* `waiting`: the bindings of a type tag that are released and whose slots are not taken since.
* `freed_ofActs`: a block keeps just these, in the order of release.
* `refs_of_run`: the listing after any events.
-/

set_option autoImplicit false

namespace BlockSlots

/-! ## Releases by type tag -/

/-- The type tag that a record was declared with. -/
def tagOf? (acts : List Act) (r : Ref) : Option String := (declarations acts).lookup r

theorem tagOf?_eq_some_iff {acts : List Act} (h : (records acts).Nodup) {r : Ref} {tag : String} :
    tagOf? acts r = some tag ↔ (r, tag) ∈ declarations acts := by
  rw [tagOf?, List.lookup_eq_some_iff]
  refine ⟨fun hl => ?_, fun hm => ?_⟩
  · obtain ⟨before, after, hl, -⟩ := hl
    rw [hl]
    exact List.mem_append_right _ List.mem_cons_self
  · obtain ⟨before, after, hl⟩ := List.append_of_mem hm
    refine ⟨before, after, hl, fun d hd => ?_⟩
    -- a record is declared once
    have hnodup := nodup_fst_declarations h
    rw [hl, List.map_append, List.map_cons, List.nodup_middle, List.nodup_cons] at hnodup
    have hne : r ≠ d.1 := fun he =>
      hnodup.1 (List.mem_append_left _ (List.mem_map.2 ⟨d, hd, he.symm⟩))
    simpa using hne

theorem exists_tagOf? {acts : List Act} {r : Ref} (h : r ∈ records acts) :
    ∃ tag, tagOf? acts r = some tag := by
  rw [← map_fst_declarations] at h
  obtain ⟨d, hd, rfl⟩ := List.mem_map.1 h
  cases ht : tagOf? acts d.1 with
  | none => simpa using List.lookup_eq_none_iff.1 ht d hd
  | some tag => exact ⟨tag, rfl⟩

/-- A record keeps its type tag. -/
theorem tagOf?_append {acts : List Act} {r : Ref} {tag : String} (h : tagOf? acts r = some tag)
    (more : List Act) : tagOf? (acts ++ more) r = some tag := by
  rw [tagOf?, declarations_append, List.lookup_append, ← tagOf?, h]
  rfl

/-- The bindings of type tag `tag` that are released and wait for their slots to be taken again, the
latest first, after one more act. A declaration takes the slot of the latest. -/
def Act.wait (tag : String) (before : List Act) (waiting : List Ref) (a : Act) : List Ref :=
  match a with
  | .bind _ _ t => if t = tag then waiting.tail else waiting
  | .unbind _ => (a.freed? before).toList.filter (tagOf? before · = some tag) ++ waiting

/-- The bindings of type tag `tag` that wait after acts, the latest released first; `waiting` are
those that wait after the acts `before` in front. -/
def waitingAfter (tag : String) (before : List Act) (waiting : List Ref) : List Act → List Ref
  | [] => waiting
  | a :: acts => waitingAfter tag (before ++ [a]) (a.wait tag before waiting) acts

/-- The bindings of type tag `tag` that are released and whose slots are not taken since, the latest
released first. -/
def waiting (tag : String) (acts : List Act) : List Ref := waitingAfter tag [] [] acts

theorem waitingAfter_concat (tag : String) (before : List Act) (refs : List Ref) (acts : List Act)
    (a : Act) : waitingAfter tag before refs (acts ++ [a]) =
      a.wait tag (before ++ acts) (waitingAfter tag before refs acts) := by
  induction acts generalizing before refs with
  | nil => simp [waitingAfter]
  | cons b acts ih => simp [waitingAfter, ih]

theorem waiting_concat (tag : String) (acts : List Act) (a : Act) :
    waiting tag (acts ++ [a]) = a.wait tag acts (waiting tag acts) :=
  waitingAfter_concat tag [] [] acts a

/-! ## The order of the names and of the type tags -/

/-- The name that an act binds. -/
def Act.bindsName? : Act → Option String
  | .bind _ name _ => some name
  | .unbind _ => none

/-- The names that acts bind, in the order in which they are first bound. -/
def namesBound (acts : List Act) : List String := (acts.filterMap Act.bindsName?).eraseDups

/-- The type tags of the bindings that acts release, in the order in which they are first
released. -/
def tagsReleased (acts : List Act) : List String :=
  ((releases [] acts).filterMap (tagOf? acts)).eraseDups

theorem namesBound_concat_bind (acts : List Act) (ref : Ref) (name tag : String) :
    namesBound (acts ++ [.bind ref name tag]) =
      (acts.filterMap Act.bindsName? ++ [name]).eraseDups := by
  rw [namesBound, List.filterMap_append]
  rfl

theorem namesBound_concat_unbind (acts : List Act) (name : String) :
    namesBound (acts ++ [.unbind name]) = namesBound acts := by
  rw [namesBound, List.filterMap_append]
  exact congrArg List.eraseDups (List.append_nil _)

theorem filterMap_tagOf?_concat (acts : List Act) (a : Act) :
    (releases [] acts).filterMap (tagOf? (acts ++ [a])) =
      (releases [] acts).filterMap (tagOf? acts) := by
  refine List.filterMap_congr fun r hr => ?_
  obtain ⟨tag, ht⟩ := exists_tagOf? (mem_records_of_releases hr)
  rw [ht, tagOf?_append ht]

namespace Block

/-- A block lists the names in the order in which they are first bound. -/
theorem keys_live_ofActs (id : Nat) (acts : List Act) :
    (ofActs id acts).live.table.keys = namesBound acts := by
  induction acts using List.reverseRecOn with
  | nil => rfl
  | append_singleton acts a ih =>
    rw [ofActs_concat]
    cases a with
    | bind ref name tag =>
      rw [act, live_hold, namesBound_concat_bind]
      exact Table.keys_update_of_eraseDups ih name _
    | unbind name =>
      rw [namesBound_concat_unbind, ← ih]
      cases hp : (ofActs id acts).live.pop? name with
      | none => rw [act_unbind_of_none hp]
      | some p =>
        rw [act_unbind_of_pop? hp]
        exact Stacks.keys_of_pop? hp

theorem tagOf?_of_pop? {id : Nat} {acts : List Act} (h : (records acts).Nodup) {name : String}
    {p : Holding × Stacks Holding} (hp : (ofActs id acts).live.pop? name = some p) :
    tagOf? acts p.1.ref = some p.1.tag := by
  have hm : p.1 ∈ (ofActs id acts).live.toList := Stacks.mem_toList_of_pop? hp
  exact (tagOf?_eq_some_iff h).2 (mem_declarations_of_mem_held (List.mem_append_left _ hm))

/-- A block lists the type tags in the order in which they are first released. -/
theorem keys_freed_ofActs (id : Nat) {acts : List Act} (h : (records acts).Nodup) :
    (ofActs id acts).freed.table.keys = tagsReleased acts := by
  induction acts using List.reverseRecOn with
  | nil => rfl
  | append_singleton acts a ih =>
    rw [records_append] at h
    have hbefore := (List.nodup_append.1 h).1
    have ih := ih hbefore
    rw [ofActs_concat, tagsReleased, releases_concat, List.nil_append, List.filterMap_append,
      filterMap_tagOf?_concat]
    cases a with
    | bind ref name tag =>
      rw [Act.freed?, Option.toList_none, List.filterMap_nil, List.append_nil, ← tagsReleased,
        ← ih, act]
      cases hp : (ofActs id acts).freed.pop? tag with
      | none => rw [hold_of_none hp]
      | some p =>
        rw [hold_of_pop? hp]
        exact Stacks.keys_of_pop? hp
    | unbind name =>
      rw [freed?_unbind id]
      cases hp : (ofActs id acts).live.pop? name with
      | none =>
        rw [act_unbind_of_none hp, Option.map_none, Option.toList_none, List.filterMap_nil,
          List.append_nil, ← tagsReleased, ← ih]
      | some p =>
        have htag := tagOf?_append (tagOf?_of_pop? hbefore hp) [.unbind name]
        rw [act_unbind_of_pop? hp, Option.map_some, Option.toList_some,
          List.filterMap_cons_some htag, List.filterMap_nil]
        exact Table.keys_update_of_eraseDups ih p.1.tag _

/-- **A block keeps under each type tag** the released bindings whose slots are not taken since. -/
theorem freed_ofActs (id : Nat) {acts : List Act} (h : (records acts).Nodup) (tag : String) :
    ((ofActs id acts).freed.stack tag).map (·.ref) = waiting tag acts := by
  induction acts using List.reverseRecOn with
  | nil => rfl
  | append_singleton acts a ih =>
    rw [records_append] at h
    have hbefore := (List.nodup_append.1 h).1
    have ih := ih hbefore
    rw [ofActs_concat, waiting_concat, ← ih]
    cases a with
    | bind ref name t =>
      rw [stack_freed_bind, Act.wait]
      split
      · rw [List.map_tail]
      · rfl
    | unbind name =>
      rw [Act.wait, freed?_unbind id]
      cases hp : (ofActs id acts).live.pop? name with
      | none =>
        rw [act_unbind_of_none hp]
        rfl
      | some p =>
        rw [act_unbind_of_pop? hp, Option.map_some, Option.toList_some, List.filter_singleton,
          tagOf?_of_pop? hbefore hp]
        by_cases ht : p.1.tag = tag
        · subst ht
          simp
        · simp [ht, Stacks.stack_push_of_ne (Ne.symm ht)]

/-- The slots of a block are listed as its history tells. -/
theorem refs_ofActs (id : Nat) {acts : List Act} (h : (records acts).Nodup) :
    (ofActs id acts).refs = (namesBound acts).flatMap (fun name => (standing name acts).reverse) ++
      (tagsReleased acts).flatMap fun tag => (waiting tag acts).reverse := by
  have hlive : (ofActs id acts).live.table.keys.Nodup := by
    rw [keys_live_ofActs]
    exact Table.nodup_eraseDups _
  have hfreed : (ofActs id acts).freed.table.keys.Nodup := by
    rw [keys_freed_ofActs id h]
    exact Table.nodup_eraseDups _
  rw [refs, List.map_append, Stacks.toList_eq_flatMap hlive, Stacks.toList_eq_flatMap hfreed,
    List.map_flatMap, List.map_flatMap, keys_live_ofActs, keys_freed_ofActs id h]
  simp only [List.map_reverse, freed_ofActs id h, ← bound_ofActs id, bound]

-- a name that is bound again is listed in its old place, whatever the type
example : (ofActs 0 [.bind 0 "a" "int", .bind 1 "b" "float", .bind 2 "c" "int", .unbind "a",
    .bind 3 "a" "float"]).refs = [3, 1, 2, 0] := by decide +kernel

/-- A release takes the latest declaration of its name that no release is matched with. -/
theorem exists_unbind_of_standing {id : Nat} {acts : List Act} {name : String} {r : Ref}
    {rest : List Ref} (h : standing name acts = r :: rest) :
    ∃ b, (ofActs id acts).unbind name = .ok (r, b) := by
  have hvisible : (ofActs id acts).visible? name = some r := by
    rw [visible?_ofActs, h]
    rfl
  cases hu : (ofActs id acts).unbind name with
  | error e =>
    rw [(unbind_eq_error_iff.1 hu).1] at hvisible
    cases hvisible
  | ok p =>
    obtain ⟨s, b⟩ := p
    rw [(unbind_eq_ok hu).2, Option.some.injEq] at hvisible
    exact ⟨b, by rw [hvisible]⟩

/-- **The listing of a block's slots** is determined by its history. The names come in the order in
which they were first bound, each with its bindings that no release is matched with; then the type
tags in the order in which they were first released, each with the released bindings whose slots are
not taken since; under each of them the oldest comes first. A release is matched with the latest
binding of its name that none is matched with. If there is none, it fails and changes nothing. -/
theorem refs_of_run (id : Nat) (ledger : Ledger) (events : List Event) :
    (Event.run id ledger events).2.refs =
      (namesBound (Event.acts ledger.size events)).flatMap (fun name =>
        (standing name (Event.acts ledger.size events)).reverse) ++
      (tagsReleased (Event.acts ledger.size events)).flatMap (fun tag =>
        (waiting tag (Event.acts ledger.size events)).reverse) ∧
    ∀ name,
      (∀ r rest, standing name (Event.acts ledger.size events) = r :: rest →
        ∃ b, (Event.run id ledger events).2.unbind name = .ok (r, b)) ∧
      (standing name (Event.acts ledger.size events) = [] →
        (Event.run id ledger events).2.unbind name = .error ⟨name⟩ ∧
          Event.run id ledger (events ++ [.unbind name]) = Event.run id ledger events) := by
  have hrun := Event.run_eq_ofActs id ledger events
  refine ⟨?_, fun name => ⟨fun r rest hs => ?_, fun hs => ?_⟩⟩
  · rw [hrun]
    exact refs_ofActs id (Event.nodup_records_acts ledger.size events)
  · rw [hrun]
    exact exists_unbind_of_standing hs
  · have hfree : (Event.run id ledger events).2.visible? name = none := by
      rw [hrun, visible?_ofActs, hs]
      rfl
    have hfails := unbind_eq_error_iff.2 ⟨hfree, rfl⟩
    refine ⟨hfails, ?_⟩
    rw [Event.run_concat, Event.apply, hfails]

end Block

end BlockSlots
