import BlockSlots.Proofs.Slots

/-!
# A block and its ledger

A block by itself, together with the ledger that it shares with other blocks: it binds and releases
names in any order, while other blocks bind names of theirs in the ledger and uses are noted there
(`Event`). What the block remembers of its bindings always agrees with the ledger, and its slots are
numbered without gaps.

* `Ledger.Grows`: records are added to a ledger, and of those that are there only the use changes.
* `Block.Recorded`: the records of a block agree with what the block remembers of them.
* `Block.Recorded.apply`: every event keeps this.
* `slots_numbered_of_run`: the numbers of the slots after any events.
-/

set_option autoImplicit false

namespace BlockSlots

/-! ## Ledgers that grow -/

namespace Ledger

/-- Of the bindings recorded in `l` all is kept in `l'` but whether they are used. -/
def Grows (l l' : Ledger) : Prop :=
  ∀ r v, l.binding? r = some v → ∃ used, l'.binding? r = some { v with used }

theorem Grows.refl (l : Ledger) : l.Grows l := fun _ v h => ⟨v.used, h⟩

theorem Grows.trans {l l' l'' : Ledger} (h : l.Grows l') (h' : l'.Grows l'') : l.Grows l'' := by
  intro r v hv
  obtain ⟨used, hv⟩ := h r v hv
  obtain ⟨used', hv⟩ := h' r _ hv
  exact ⟨used', hv⟩

theorem grows_push (l : Ledger) (row : Row) : l.Grows (l.push row) := by
  intro r v hv
  refine ⟨v.used, ?_⟩
  obtain ⟨row', hrow, -⟩ := Option.map_eq_some_iff.1 hv
  have hlt : r < l.size := (Array.getElem?_eq_some_iff.1 hrow).1
  rw [binding?, get?_push_of_lt hlt]
  exact hv

theorem grows_noteUse (l : Ledger) (s : Ref) : l.Grows (l.noteUse s) := by
  intro r v hv
  obtain ⟨row, hrow, rfl⟩ := Option.map_eq_some_iff.1 hv
  rw [binding?, get?_noteUse, hrow, Option.map_some]
  by_cases h : s = r
  · exact ⟨true, by simp [h]⟩
  · exact ⟨row.binding.used, by simp [h]⟩

end Ledger

/-! ## Events -/

/-- What happens to a block and to the ledger that it shares with other blocks. -/
inductive Event where
  /-- The block binds a name. -/
  | bind (name tag : String)
  /-- The block releases a name. If it is not bound, nothing changes. -/
  | unbind (name : String)
  /-- The use of a record is noted. -/
  | noteUse (r : Ref)
  /-- Another block binds a name. -/
  | elsewhere (other : Block) (name tag : String)

/-- The ledger and the block after an event. -/
def Event.apply (s : Ledger × Block) : Event → Ledger × Block
  | bind name tag => s.2.bind s.1 name tag
  | unbind name =>
    match s.2.unbind name with
    | .ok (_, block) => (s.1, block)
    | .error _ => s
  | noteUse r => (s.1.noteUse r, s.2)
  | elsewhere other name tag => ((other.bind s.1 name tag).1, s.2)

/-- The ledger and the block after events, the first of which finds the block empty. -/
def Event.run (id : Nat) (ledger : Ledger) (events : List Event) : Ledger × Block :=
  events.foldl Event.apply (ledger, { id })

theorem Event.apply_unbind (s : Ledger × Block) (name : String) :
    apply s (.unbind name) = (s.1, s.2.act (.unbind name)) := by
  rw [apply, Block.act]
  cases s.2.unbind name <;> rfl

theorem Event.run_concat (id : Nat) (ledger : Ledger) (events : List Event) (e : Event) :
    run id ledger (events ++ [e]) = e.apply (run id ledger events) := by
  simp [run]

theorem Event.grows_apply (s : Ledger × Block) (e : Event) : s.1.Grows (e.apply s).1 := by
  cases e with
  | bind name tag => exact Ledger.grows_push _ _
  | unbind name =>
    rw [apply_unbind]
    exact Ledger.Grows.refl _
  | noteUse r => exact Ledger.grows_noteUse _ _
  | elsewhere other name tag => exact Ledger.grows_push _ _

theorem Event.grows_run (id : Nat) (ledger : Ledger) (events more : List Event) :
    (run id ledger events).1.Grows (run id ledger (events ++ more)).1 := by
  induction more using List.reverseRecOn with
  | nil =>
    rw [List.append_nil]
    exact Ledger.Grows.refl _
  | append_singleton more e ih =>
    rw [← List.append_assoc, run_concat]
    exact ih.trans (grows_apply _ e)

/-! ## What a block remembers -/

namespace Block

theorem tags_act (b : Block) (a : Act) :
    (b.act a).tags = b.tags ∨ ∃ tag, (b.act a).tags = b.tags.add tag := by
  cases a with
  | bind ref name tag =>
    rw [act]
    cases hp : b.freed.pop? tag with
    | none => exact .inr ⟨tag, by rw [hold_of_none hp]⟩
    | some p => exact .inl (by rw [hold_of_pop? hp])
  | unbind name =>
    cases hp : b.live.pop? name with
    | none => exact .inl (by rw [act_unbind_of_none hp])
    | some p => exact .inl (by rw [act_unbind_of_pop? hp])

theorem counts_act {b : Block} (h : b.tags.Counts) (a : Act) : (b.act a).tags.Counts := by
  rcases b.tags_act a with heq | ⟨tag, heq⟩
  · rwa [heq]
  · rw [heq]
    exact h.add tag

/-- After a binding a slot is held by it, or by what held it before. -/
theorem mem_held_bind {b : Block} {ref : Ref} {name tag : String} {h : Holding}
    (hm : h ∈ (b.act (.bind ref name tag)).held) :
    h = ⟨ref, tag, b.nextSlot tag⟩ ∨ h ∈ b.held := by
  rw [act] at hm
  cases hp : b.freed.pop? tag with
  | none =>
    rw [nextSlot_of_none hp]
    exact List.mem_cons.1 ((held_hold_of_none hp ref name).mem_iff.1 hm)
  | some p =>
    obtain ⟨others, hbefore, hafter⟩ := held_hold_of_pop? hp ref name
    rw [nextSlot_of_pop? hp]
    rcases List.mem_cons.1 (hafter.mem_iff.1 hm) with heq | hm
    · exact .inl heq
    · exact .inr (hbefore.mem_iff.2 (List.mem_cons_of_mem _ hm))

/-- A block that is numbered, and the records of its bindings. -/
structure Recorded (ledger : Ledger) (b : Block) : Prop where
  numbered : b.Numbered
  counts : b.tags.Counts
  /-- What holds a slot is recorded with its type tag and the slot, -/
  held : ∀ h ∈ b.held, ∃ name used, ledger.binding? h.ref = some ⟨name, h.tag, h.slot, used⟩
  /-- and what is bound to a name with the name. -/
  bound : ∀ name, ∀ r ∈ b.bound name, ∃ v, ledger.binding? r = some v ∧ v.name = name

theorem recorded_empty (id : Nat) (ledger : Ledger) : Recorded ledger { id } where
  numbered := numbered_empty id
  counts := Tally.counts_empty
  held _ hm := absurd hm List.not_mem_nil
  bound _ _ hr := absurd hr List.not_mem_nil

theorem Recorded.grows {b : Block} {l l' : Ledger} (h : Recorded l b) (hg : l.Grows l') :
    Recorded l' b where
  numbered := h.numbered
  counts := h.counts
  held x hx := by
    obtain ⟨name, used, hv⟩ := h.held x hx
    obtain ⟨used', hv⟩ := hg _ _ hv
    exact ⟨name, used', hv⟩
  bound name r hr := by
    obtain ⟨v, hv, hname⟩ := h.bound name r hr
    obtain ⟨used, hv⟩ := hg _ _ hv
    exact ⟨_, hv, hname⟩

theorem Recorded.bind {b : Block} {l : Ledger} (h : Recorded l b) (name tag : String) :
    Recorded (b.bind l name tag).1 (b.bind l name tag).2 := by
  have hnew : (b.bind l name tag).1.binding? l.size =
      some ⟨name, tag, b.nextSlot tag, false⟩ := by
    rw [Block.bind, Ledger.binding?, Ledger.get?_push_size]
    rfl
  have hold : Recorded (b.bind l name tag).1 b := h.grows (Ledger.grows_push _ _)
  show Recorded _ (b.act (.bind l.size name tag))
  refine { numbered := h.numbered.act _, counts := counts_act h.counts _, held := ?_, bound := ?_ }
  · intro x hx
    rcases mem_held_bind hx with rfl | hx
    · exact ⟨name, false, hnew⟩
    · exact hold.held x hx
  · intro n r hr
    rw [bound_act, Act.match] at hr
    split at hr
    · next hn =>
      rcases List.mem_cons.1 hr with rfl | hr
      · exact ⟨_, hnew, hn⟩
      · exact hold.bound n r hr
    · exact hold.bound n r hr

theorem Recorded.unbind {b : Block} {l : Ledger} (h : Recorded l b) (name : String) :
    Recorded l (b.act (.unbind name)) := by
  refine { numbered := h.numbered.act _, counts := counts_act h.counts _, held := ?_, bound := ?_ }
  · intro x hx
    exact h.held x ((held_unbind_perm b name).mem_iff.1 hx)
  · intro n r hr
    rw [bound_act, Act.match] at hr
    split at hr
    · exact h.bound n r (List.mem_of_mem_tail hr)
    · exact h.bound n r hr

/-- **Every event keeps block and ledger in agreement.** -/
theorem Recorded.apply {s : Ledger × Block} (h : Recorded s.1 s.2) (e : Event) :
    Recorded (e.apply s).1 (e.apply s).2 := by
  cases e with
  | bind name tag => exact h.bind name tag
  | unbind name =>
    rw [Event.apply_unbind]
    exact h.unbind name
  | noteUse r => exact h.grows (Ledger.grows_noteUse _ _)
  | elsewhere other name tag => exact h.grows (Ledger.grows_push _ _)

theorem recorded_run (id : Nat) (ledger : Ledger) (events : List Event) :
    Recorded (Event.run id ledger events).1 (Event.run id ledger events).2 := by
  induction events using List.reverseRecOn with
  | nil => exact recorded_empty id ledger
  | append_singleton events e ih =>
    rw [Event.run_concat]
    exact ih.apply e

/-! ## The numbers of the slots -/

/-- The bindings `vs` hold the slots of a block, numbered without gaps. -/
structure SlotsNumbered (b : Block) (vs : List Binding) : Prop where
  /-- There is one for each slot of the block. -/
  length : vs.length = b.size
  /-- The slots are numbered from zero. -/
  ids : (vs.map (·.slot.id)).Perm (List.range b.size)
  /-- No two have the same type number and the same number within the type. -/
  distinct : (vs.map fun v => (v.slot.kind, v.slot.index)).Nodup
  /-- The type tag has a number of its own. -/
  kind_eq_iff : ∀ v ∈ vs, ∀ w ∈ vs, v.slot.kind = w.slot.kind ↔ v.tag = w.tag
  /-- The type tags are numbered from zero. -/
  kinds : ∀ k, (∃ v ∈ vs, v.slot.kind = k) ↔ k < b.kindCount
  /-- Within each type tag the slots are numbered from zero. -/
  indices : ∀ tag, ((vs.filter (·.tag = tag)).map (·.slot.index)).Perm
    (List.range (vs.filter (·.tag = tag)).length)

theorem Numbered.lt_kindCount_iff {b : Block} (h : b.Numbered) (hc : b.tags.Counts) {k : Nat} :
    k < b.kindCount ↔ ∃ p ∈ b.places, p.2.kind = k := by
  rw [kindCount, hc.lt_size_iff]
  constructor
  · rintro ⟨tag, htag, rfl⟩
    obtain ⟨p, hp, rfl, -⟩ := h.lt_count_iff.1 (hc.pos tag htag)
    exact ⟨p, hp, (h.kinds p hp).2⟩
  · rintro ⟨p, hp, rfl⟩
    obtain ⟨hm, hkind⟩ := h.kinds p hp
    exact ⟨p.1, hm, hkind.symm⟩

theorem Numbered.nodup_kind_index {b : Block} (h : b.Numbered) :
    (b.places.map fun p => (p.2.kind, p.2.index)).Nodup := by
  have hids := h.ids.nodup_iff.2 List.nodup_range
  refine List.Nodup.map_on ?_ hids.of_map
  intro p hp q hq heq
  rw [Prod.mk.injEq] at heq
  exact h.place_eq_of_kind_index_eq hp hq heq.1 heq.2

/-- Bindings that stand in the places of a block have the numbers of these. -/
theorem Numbered.slotsNumbered {b : Block} (h : b.Numbered) (hc : b.tags.Counts)
    {vs : List Binding} (hvs : vs.map (fun v => (v.tag, v.slot)) = b.places) :
    b.SlotsNumbered vs := by
  have hmem : ∀ v ∈ vs, (v.tag, v.slot) ∈ b.places := by
    intro v hv
    rw [← hvs]
    exact List.mem_map_of_mem hv
  have hids := h.ids
  rw [← hvs, List.map_map] at hids
  refine { length := ?_, ids := hids, distinct := ?_, kind_eq_iff := ?_, kinds := ?_,
           indices := ?_ }
  · simpa using hids.length_eq
  · have hnodup := h.nodup_kind_index
    rw [← hvs, List.map_map] at hnodup
    exact hnodup
  · intro v hv w hw
    exact h.kind_eq_iff (hmem v hv) (hmem w hw)
  · intro k
    rw [h.lt_kindCount_iff hc, ← hvs]
    simp
  · intro tag
    have hindices := h.indices tag
    rw [← hvs, List.filter_map, List.map_map] at hindices
    have hlen := hindices.length_eq
    rw [List.length_map, List.length_range] at hlen
    rw [← hlen] at hindices
    exact hindices

theorem Recorded.exists_bindings {b : Block} {l : Ledger} (h : Recorded l b) :
    ∃ vs : List Binding, b.refs.map l.binding? = vs.map some ∧
      vs.map (fun v => (v.tag, v.slot)) = b.places := by
  have hall : ∀ hs : List Holding, (∀ x ∈ hs, x ∈ b.held) → ∃ vs : List Binding,
      (hs.map (·.ref)).map l.binding? = vs.map some ∧
        vs.map (fun v => (v.tag, v.slot)) = hs.map (·.place) := by
    intro hs hsub
    induction hs with
    | nil => exact ⟨[], rfl, rfl⟩
    | cons x hs ih =>
      obtain ⟨vs, hrefs, hplaces⟩ := ih fun y hy => hsub y (List.mem_cons_of_mem _ hy)
      obtain ⟨name, used, hv⟩ := h.held x (hsub x List.mem_cons_self)
      refine ⟨⟨name, x.tag, x.slot, used⟩ :: vs, ?_, ?_⟩
      · rw [List.map_cons, List.map_cons, hv, hrefs, List.map_cons]
      · rw [List.map_cons, hplaces, List.map_cons]
        rfl
  exact hall b.held fun x hx => hx

/-- **The slots of a block after any events.** Each is listed once, by a binding that is recorded;
the slots, the type tags and the slots of each type tag are numbered without gaps. What is bound to
a name is recorded with this name, and what waits for a type tag with this type tag. Whatever
happens next, records are kept but for their use. -/
theorem slots_numbered_of_run (id : Nat) (ledger : Ledger) (events : List Event) :
    (∃ vs : List Binding,
      (Event.run id ledger events).2.refs.map (Event.run id ledger events).1.binding? =
        vs.map some ∧ (Event.run id ledger events).2.SlotsNumbered vs) ∧
    (∀ name, ∀ r ∈ (Event.run id ledger events).2.bound name,
      ∃ v, (Event.run id ledger events).1.binding? r = some v ∧ v.name = name) ∧
    (∀ tag, ∀ h ∈ (Event.run id ledger events).2.freed.stack tag,
      ∃ v, (Event.run id ledger events).1.binding? h.ref = some v ∧ v.tag = tag) ∧
    ∀ more, (Event.run id ledger events).1.Grows (Event.run id ledger (events ++ more)).1 := by
  have h := recorded_run id ledger events
  refine ⟨?_, h.bound, ?_, Event.grows_run id ledger events⟩
  · obtain ⟨vs, hrefs, hplaces⟩ := h.exists_bindings
    exact ⟨vs, hrefs, h.numbered.slotsNumbered h.counts hplaces⟩
  · intro tag x hx
    have hheld : x ∈ (Event.run id ledger events).2.held :=
      List.mem_append_right _ (Stacks.mem_toList_of_mem_stack hx)
    obtain ⟨name, used, hv⟩ := h.held x hheld
    exact ⟨_, hv, h.numbered.tagged tag x hx⟩

end Block

end BlockSlots
