import BlockSlots.Proofs.Lifetimes

/-!
# Type tags by themselves

The slots of a type tag go their own way. Of the events of a run keep those that declare or release
a binding of one type tag (`Event.only`), and let them happen to an empty block of its own: each of
them succeeds as before, releases the same bindings, and finds the same slots of the type tag. Names
are shared by all type tags, but a release that is kept is the release of the same binding, because
what lies above it under its name is released before it in both runs.

* `Block.Follows`: a block with the slots of one type tag alone against the block with all of them.
* `Block.Follows.bind`, `Block.Follows.unbind`: both blocks after an event of the type tag.
* `Block.Follows.bind_other`, `Block.Follows.unbind_other`: and after an event of another one, which
  only the block with all type tags sees.
* `only_tag_of_run`: what the events that are kept answer.
-/

set_option autoImplicit false

namespace BlockSlots

/-! ## The events of one type tag -/

namespace Event

/-- Whether an event binds a name with type tag `tag`, or releases a binding with it. -/
def concerns (tag : String) (s : Ledger × Block) : Event → Bool
  | .bind _ t => t = tag
  | .unbind name => ((s.2.visible? name).bind s.1.binding?).any (·.tag = tag)
  | .noteUse _ => false
  | .elsewhere _ _ _ => false

/-- The events, in their order, that bind a name with type tag `tag` or release a binding with it,
where the first finds the ledger and the block as given. -/
def only (tag : String) (s : Ledger × Block) : List Event → List Event
  | [] => []
  | e :: events => (if e.concerns tag s then [e] else []) ++ only tag (e.apply s) events

/-- The record that the block binds a name in, or the one that it releases. -/
def answer? (s : Ledger × Block) : Event → Option Ref
  | .bind _ _ => some s.1.size
  | .unbind name => (s.2.unbind name).toOption.map (·.1)
  | .noteUse _ => none
  | .elsewhere _ _ _ => none

theorem answer?_unbind_of_pop? {s : Ledger × Block} {name : String} {x : Holding}
    {live : Stacks Holding} (hp : s.2.live.pop? name = some (x, live)) :
    answer? s (.unbind name) = some x.ref := by
  rw [answer?, Block.unbind, hp]
  rfl

theorem only_append (tag : String) (s : Ledger × Block) (events more : List Event) :
    only tag s (events ++ more) = only tag s events ++ only tag (events.foldl apply s) more := by
  induction events generalizing s with
  | nil => rfl
  | cons e events ih => rw [List.cons_append, only, only, ih, List.append_assoc, List.foldl_cons]

theorem only_concat (tag : String) (id : Nat) (ledger : Ledger) (events : List Event) (e : Event) :
    only tag (ledger, { id }) (events ++ [e]) = only tag (ledger, { id }) events ++
      if e.concerns tag (run id ledger events) then [e] else [] := by
  rw [only_append]
  exact congrArg _ (List.append_nil _)

/-- Every event that is kept stood among the others. -/
theorem exists_of_only_isPrefix {tag : String} {id : Nat} {ledger : Ledger}
    {events kept : List Event} {e : Event}
    (h : kept ++ [e] <+: only tag (ledger, { id }) events) :
    ∃ before, before ++ [e] <+: events ∧ only tag (ledger, { id }) before = kept ∧
      e.concerns tag (run id ledger before) = true := by
  induction events using List.reverseRecOn with
  | nil =>
    have hnil := List.prefix_nil.1 h
    simp at hnil
  | append_singleton events x ih =>
    have hold : kept ++ [e] <+: only tag (ledger, { id }) events →
        ∃ before, before ++ [e] <+: events ++ [x] ∧ only tag (ledger, { id }) before = kept ∧
          e.concerns tag (run id ledger before) = true := by
      intro hp
      obtain ⟨before, hb, hk⟩ := ih hp
      exact ⟨before, hb.trans (List.prefix_append _ _), hk⟩
    rw [only_concat] at h
    split at h
    · next hx =>
      rcases List.prefix_concat_iff.1 h with heq | hp
      · obtain ⟨hkept, he⟩ := List.append_inj' heq rfl
        cases he
        exact ⟨events, List.prefix_rfl, hkept.symm, hx⟩
      · exact hold hp
    · rw [List.append_nil] at h
      exact hold h

end Event

/-! ## Two blocks -/

/-- Two holdings in runs side by side: the second is in record `k` if the first is in number `k` of
the records `kept`, and both have the type tag and the same slot of it. -/
structure Holding.Counterpart (kept : List Ref) (h h' : Holding) : Prop where
  ref : kept[h'.ref]? = some h.ref
  tag : h'.tag = h.tag
  index : h'.slot.index = h.slot.index

theorem Holding.Counterpart.append {kept : List Ref} {h h' : Holding} (hc : Counterpart kept h h')
    (more : List Ref) : Counterpart (kept ++ more) h h' where
  ref := by
    rw [List.getElem?_append_left (List.getElem?_eq_some_iff.1 hc.ref).1]
    exact hc.ref
  tag := hc.tag
  index := hc.index

namespace Block

/-- Block `b'` has the slots of type tag `tag` that `b` has, held in the same way, and no others;
`kept` are the records of `b` with this type tag. -/
structure Follows (tag : String) (kept : List Ref) (b b' : Block) : Prop where
  live : ∀ name, List.Forall₂ (Holding.Counterpart kept)
    ((b.live.stack name).filter (·.tag = tag)) (b'.live.stack name)
  freed : List.Forall₂ (Holding.Counterpart kept) (b.freed.stack tag) (b'.freed.stack tag)
  count : b'.tags.count tag = b.tags.count tag

theorem follows_empty (tag : String) (id id' : Nat) : Follows tag [] { id } { id := id' } where
  live _ := .nil
  freed := .nil
  count := rfl

section
variable {tag : String} {kept : List Ref} {b b' : Block}

/-- The next slot is the same. -/
theorem Follows.index_nextSlot (h : Follows tag kept b b') :
    (b'.nextSlot tag).index = (b.nextSlot tag).index := by
  have hfreed := h.freed
  rw [nextSlot, nextSlot, Stacks.top?, Stacks.top?]
  revert hfreed
  generalize b.freed.stack tag = hs
  generalize b'.freed.stack tag = hs'
  intro hfreed
  cases hfreed with
  | nil => exact h.count
  | cons hc _ => exact hc.index

/-- Both blocks bind a name with the type tag. -/
theorem Follows.bind (h : Follows tag kept b b') (ref : Ref) (name : String) :
    Follows tag (kept ++ [ref]) (b.act (.bind ref name tag))
      (b'.act (.bind kept.length name tag)) where
  live other := by
    have hold := (h.live other).imp fun _ _ hc => hc.append [ref]
    rw [stack_live_bind, stack_live_bind]
    split
    · rw [List.filter_cons_of_pos (by simp)]
      exact .cons ⟨List.getElem?_concat_length, rfl, h.index_nextSlot⟩ hold
    · exact hold
  freed := by
    have hold := h.freed.imp fun _ _ hc => hc.append [ref]
    rw [stack_freed_bind, stack_freed_bind, if_pos rfl, if_pos rfl, ← List.drop_one,
      ← List.drop_one]
    exact List.forall₂_drop 1 hold
  count := by
    have hlength := h.freed.length_eq
    simp only [count_tags_bind, h.count, ← List.length_eq_zero_iff, hlength]

/-- A declaration with another type tag does not concern the slots of this one. -/
theorem Follows.bind_other (h : Follows tag kept b b') {t : String} (ht : t ≠ tag) (ref : Ref)
    (name : String) : Follows tag kept (b.act (.bind ref name t)) b' where
  live other := by
    rw [stack_live_bind]
    split
    · rw [List.filter_cons_of_neg (by simpa using ht)]
      exact h.live other
    · exact h.live other
  freed := by
    rw [stack_freed_bind, if_neg ht]
    exact h.freed
  count := by
    rw [count_tags_bind, if_neg fun hx => ht hx.1]
    exact h.count

/-- A binding with the type tag that is released was bound to the name in both blocks. -/
theorem Follows.unbind (h : Follows tag kept b b') {name : String} {x : Holding}
    {live : Stacks Holding} (hp : b.live.pop? name = some (x, live)) (hx : x.tag = tag) :
    ∃ x' live', b'.live.pop? name = some (x', live') ∧ x.Counterpart kept x' ∧
      Follows tag kept (b.act (.unbind name)) (b'.act (.unbind name)) := by
  have hname := h.live name
  rw [Stacks.stack_of_pop? hp, List.filter_cons_of_pos (by simpa using hx)] at hname
  obtain ⟨x', rest', hc, hrest, hstack⟩ := List.forall₂_cons_left_iff.1 hname
  obtain ⟨live', hp', rfl⟩ := Stacks.exists_pop?_of_stack hstack
  refine ⟨x', live', hp', hc, ?_⟩
  rw [act_unbind_of_pop? hp, act_unbind_of_pop? hp']
  refine { live := fun other => ?_, freed := ?_, count := h.count }
  · by_cases ho : other = name
    · subst ho
      exact hrest
    · rw [Stacks.stack_of_pop?_of_ne ho hp, Stacks.stack_of_pop?_of_ne ho hp']
      exact h.live other
  · rw [hc.tag, hx, Stacks.stack_push_self, Stacks.stack_push_self]
    exact .cons hc h.freed

/-- The release of a binding with another type tag does not concern the slots of this one. -/
theorem Follows.unbind_other (h : Follows tag kept b b') {name : String} {x : Holding}
    {live : Stacks Holding} (hp : b.live.pop? name = some (x, live)) (hx : x.tag ≠ tag) :
    Follows tag kept (b.act (.unbind name)) b' := by
  rw [act_unbind_of_pop? hp]
  refine { live := fun other => ?_, freed := ?_, count := h.count }
  · by_cases ho : other = name
    · subst ho
      have hname := h.live other
      rw [Stacks.stack_of_pop? hp, List.filter_cons_of_neg (by simpa using hx)] at hname
      exact hname
    · rw [Stacks.stack_of_pop?_of_ne ho hp]
      exact h.live other
  · rw [Stacks.stack_push_of_ne (Ne.symm hx)]
    exact h.freed

end

/-! ## Two runs -/

theorem Recorded.concerns_unbind_iff {l : Ledger} {b : Block} (h : Recorded l b) {name : String}
    {tag : String} : (Event.unbind name).concerns tag (l, b) = true ↔
      ∃ x live, b.live.pop? name = some (x, live) ∧ x.tag = tag := by
  rw [Event.concerns, visible?, Stacks.top?]
  cases hp : b.live.pop? name with
  | none => simp [Stacks.pop?_eq_none_iff.1 hp]
  | some p =>
    obtain ⟨x, live⟩ := p
    have hm : x ∈ b.live.toList := Stacks.mem_toList_of_pop? hp
    obtain ⟨n, used, hv⟩ := h.held x (List.mem_append_left _ hm)
    simp [Stacks.stack_of_pop? hp, hv]

theorem declaredWith_acts_bind (size : Nat) (name t tag : String) :
    declaredWith tag (Event.acts size [.bind name t]) = if t = tag then [size] else [] := by
  by_cases h : t = tag <;> simp [Event.acts, declaredWith, declarations, Act.declared?, h]

/-- Both runs after one more event, which the run of the type tag has only if it concerns this. -/
theorem Follows.apply {tag : String} {kept : List Ref} {s s' : Ledger × Block}
    (h : Follows tag kept s.2 s'.2) (hsize : s'.1.size = kept.length) (hr : Recorded s.1 s.2)
    (e : Event) :
    Follows tag (kept ++ declaredWith tag (Event.acts s.1.size [e])) (e.apply s).2
        ((if e.concerns tag s then [e] else []).foldl Event.apply s').2 ∧
      ((if e.concerns tag s then [e] else []).foldl Event.apply s').1.size =
        (kept ++ declaredWith tag (Event.acts s.1.size [e])).length := by
  cases e with
  | noteUse r =>
    simp only [Event.acts, declaredWith, declarations, List.filterMap_nil]
    simpa using ⟨h, hsize⟩
  | elsewhere other name t =>
    simp only [Event.acts, declaredWith, declarations, List.filterMap_nil]
    simpa using ⟨h, hsize⟩
  | bind name t =>
    by_cases ht : t = tag
    · subst ht
      have hboth := h.bind s.1.size name
      rw [← hsize] at hboth
      rw [if_pos (by simp [Event.concerns]), declaredWith_acts_bind, if_pos rfl]
      exact ⟨hboth, by simp [Event.apply, Block.bind, hsize]⟩
    · rw [if_neg (by simp [Event.concerns, ht]), declaredWith_acts_bind, if_neg ht,
        List.append_nil]
      exact ⟨h.bind_other ht s.1.size name, hsize⟩
  | unbind name =>
    have hnone : declaredWith tag (Event.acts s.1.size [.unbind name]) = [] := rfl
    rw [hnone, List.append_nil, Event.apply_unbind]
    by_cases hc : (Event.unbind name).concerns tag s = true
    · obtain ⟨x, live, hp, hx⟩ := hr.concerns_unbind_iff.1 hc
      obtain ⟨x', live', -, -, hboth⟩ := h.unbind hp hx
      rw [if_pos hc, List.foldl_cons, List.foldl_nil, Event.apply_unbind]
      exact ⟨hboth, hsize⟩
    · rw [if_neg hc]
      refine ⟨?_, hsize⟩
      cases hp : s.2.live.pop? name with
      | none =>
        rw [act_unbind_of_none hp]
        exact h
      | some p =>
        exact h.unbind_other hp fun hx => hc (hr.concerns_unbind_iff.2 ⟨p.1, p.2, hp, hx⟩)

/-- The slots of a type tag are the same in a run as in the run of its own events. -/
theorem follows_run (id id' : Nat) (ledger : Ledger) (tag : String) (events : List Event) :
    Follows tag (declaredWith tag (Event.acts ledger.size events)) (Event.run id ledger events).2
      (Event.run id' {} (Event.only tag (ledger, { id }) events)).2 ∧
    (Event.run id' {} (Event.only tag (ledger, { id }) events)).1.size =
      (declaredWith tag (Event.acts ledger.size events)).length := by
  induction events using List.reverseRecOn with
  | nil => exact ⟨follows_empty tag id id', rfl⟩
  | append_singleton events e ih =>
    rw [Event.run_concat, Event.only_concat, Event.acts_append id, declaredWith_append,
      Event.run_append id' {}]
    exact ih.1.apply ih.2 (recorded_run id ledger events) e

/-- **An event of the type tag answers alike in both runs**: with records that hold the same slot of
the type tag. -/
theorem Follows.exists_answer {tag : String} {kept : List Ref} {s s' : Ledger × Block}
    (h : Follows tag kept s.2 s'.2) (hsize : s'.1.size = kept.length) (hr : Recorded s.1 s.2)
    {e : Event} (hc : e.concerns tag s = true) : ∃ x x' : Holding,
      e.answer? s = some x.ref ∧ e.answer? s' = some x'.ref ∧
      x.Counterpart (kept ++ declaredWith tag (Event.acts s.1.size [e])) x' ∧
      x ∈ (e.apply s).2.held ∧ x' ∈ (e.apply s').2.held := by
  cases e with
  | noteUse r => cases hc
  | elsewhere other name t => cases hc
  | bind name t =>
    obtain rfl : t = tag := by simpa [Event.concerns] using hc
    refine ⟨⟨s.1.size, t, s.2.nextSlot t⟩, ⟨s'.1.size, t, s'.2.nextSlot t⟩, rfl, rfl, ?_, ?_, ?_⟩
    · rw [declaredWith_acts_bind, if_pos rfl, hsize]
      exact ⟨List.getElem?_concat_length, rfl, h.index_nextSlot⟩
    · exact List.mem_append_left _ (mem_live_bind s.2 s.1.size name t)
    · exact List.mem_append_left _ (mem_live_bind s'.2 s'.1.size name t)
  | unbind name =>
    obtain ⟨x, live, hp, hx⟩ := hr.concerns_unbind_iff.1 hc
    obtain ⟨x', live', hp', hcounterpart, -⟩ := h.unbind hp hx
    -- what is released keeps its slot until this is taken again
    have hheld : ∀ {b : Block} {y : Holding} {rest : Stacks Holding},
        b.live.pop? name = some (y, rest) → y ∈ (b.act (.unbind name)).held := by
      intro b y rest hy
      refine (held_unbind_perm b name).mem_iff.2 (List.mem_append_left _ ?_)
      exact Stacks.mem_toList_of_pop? hy
    rw [Event.apply_unbind, Event.apply_unbind]
    exact ⟨x, x', Event.answer?_unbind_of_pop? hp, Event.answer?_unbind_of_pop? hp',
      hcounterpart.append _, hheld hp, hheld hp'⟩

/-- **Type tags are independent of each other.** Keep of the events those that bind a name with a
type tag or release a binding with it, and let them happen to an empty block with an empty ledger.
Each of them succeeds. Its record in the one run, number `r'` of the records of the kept
declarations, is the counterpart of its record `r'` in the other: so a release releases the
counterpart of what it released, and a declaration gets a slot with the same number among those of
the type tag. -/
theorem only_tag_of_run (id id' : Nat) (ledger : Ledger) (tag : String) (events : List Event) :
    (∀ before e, before ++ [e] <+: Event.only tag (ledger, { id }) events →
      ∃ r, e.answer? (Event.run id' {} before) = some r) ∧
    ∀ before e, before ++ [e] <+: events → e.concerns tag (Event.run id ledger before) = true →
      Event.only tag (ledger, { id }) before ++ [e] <+: Event.only tag (ledger, { id }) events ∧
      ∃ r r' v v', e.answer? (Event.run id ledger before) = some r ∧
        e.answer? (Event.run id' {} (Event.only tag (ledger, { id }) before)) = some r' ∧
        (declaredWith tag (Event.acts ledger.size events))[r']? = some r ∧
        (Event.run id ledger (before ++ [e])).1.binding? r = some v ∧
        (Event.run id' {} (Event.only tag (ledger, { id }) before ++ [e])).1.binding? r' = some v' ∧
        v'.slot.index = v.slot.index := by
  have hanswers : ∀ before e, before ++ [e] <+: events →
      e.concerns tag (Event.run id ledger before) = true → ∃ x x' : Holding,
        e.answer? (Event.run id ledger before) = some x.ref ∧
        e.answer? (Event.run id' {} (Event.only tag (ledger, { id }) before)) = some x'.ref ∧
        x.Counterpart (declaredWith tag (Event.acts ledger.size events)) x' ∧
        x ∈ (Event.run id ledger (before ++ [e])).2.held ∧
        x' ∈ (Event.run id' {} (Event.only tag (ledger, { id }) before ++ [e])).2.held := by
    intro before e hb hc
    obtain ⟨hfollows, hsize⟩ := follows_run id id' ledger tag before
    obtain ⟨x, x', hr, hr', hcounterpart, hx, hx'⟩ :=
      hfollows.exists_answer hsize (recorded_run id ledger before) hc
    obtain ⟨rest, rfl⟩ := hb
    rw [Event.run_concat, Event.run_concat]
    refine ⟨x, x', hr, hr', ?_, hx, hx'⟩
    rw [Event.acts_append id, Event.acts_append id, declaredWith_append, declaredWith_append]
    exact hcounterpart.append _
  refine ⟨fun before e hb => ?_, fun before e hb hc => ⟨?_, ?_⟩⟩
  · obtain ⟨front, hfront, rfl, hc⟩ := Event.exists_of_only_isPrefix hb
    obtain ⟨x, x', -, hr', -⟩ := hanswers front e hfront hc
    exact ⟨x'.ref, hr'⟩
  · obtain ⟨rest, rfl⟩ := hb
    rw [Event.only_append, Event.only_concat, if_pos hc]
    exact List.prefix_append _ _
  · obtain ⟨x, x', hr, hr', hcounterpart, hx, hx'⟩ := hanswers before e hb hc
    obtain ⟨n, used, hv⟩ := (recorded_run id ledger (before ++ [e])).held x hx
    obtain ⟨n', used', hv'⟩ := (recorded_run id' {} _).held x' hx'
    exact ⟨x.ref, x'.ref, _, _, hr, hr', hcounterpart.ref, hv, hv', hcounterpart.index⟩

end Block

end BlockSlots
