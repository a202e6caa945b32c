import BlockSlots.Block
import BlockSlots.Proofs.Stores

/-!
# The acts on a block

A block changes by acts: a declaration binds a name in a new record, a release unbinds a name. The
state of a block is what its acts make of an empty block (`Block.ofActs`), and a release of a name
that is not bound changes nothing.

What a name stands for can be told from the acts alone (`standing`): match every release of the
name with the latest declaration of it that is not matched yet; what is left unmatched is bound,
and the latest of these is visible. `bound_ofActs` says that a block keeps just this.
-/

set_option autoImplicit false

namespace BlockSlots

/-- A change of a block. -/
inductive Act where
  /-- Binds a name with a type tag in record `ref`. -/
  | bind (ref : Ref) (name tag : String)
  /-- Releases the visible binding of a name. -/
  | unbind (name : String)
deriving DecidableEq, Repr

/-! ## Matching releases with declarations -/

/-- The declarations of `name` that are not matched, the latest first, after one more act. -/
def Act.match (name : String) (unmatched : List Ref) : Act → List Ref
  | .bind ref n _ => if n = name then ref :: unmatched else unmatched
  | .unbind n => if n = name then unmatched.tail else unmatched

/-- The records of the declarations of `name` that no release is matched with, the latest first. -/
def standing (name : String) (acts : List Act) : List Ref := acts.foldl (Act.match name) []

@[simp] theorem standing_concat (name : String) (acts : List Act) (a : Act) :
    standing name (acts ++ [a]) = a.match name (standing name acts) := by
  simp [standing]

/-- Some release among `acts` is matched with the declaration in record `r`. -/
def Releases (acts : List Act) (r : Ref) : Prop :=
  ∃ before name, before ++ [.unbind name] <+: acts ∧ (standing name before).head? = some r

theorem Releases.mono {acts more : List Act} {r : Ref} (h : Releases acts r) (hp : acts <+: more) :
    Releases more r :=
  let ⟨before, name, hb, hs⟩ := h
  ⟨before, name, hb.trans hp, hs⟩

namespace Block

/-! ## The state of a block -/

/-- The block after an act. -/
def act (b : Block) : Act → Block
  | .bind ref name tag => b.hold ref name tag
  | .unbind name =>
    match b.unbind name with
    | .ok (_, b') => b'
    | .error _ => b

/-- What acts make of an empty block. -/
def ofActs (id : Nat) (acts : List Act) : Block := acts.foldl act { id }

theorem ofActs_append (id : Nat) (acts more : List Act) :
    ofActs id (acts ++ more) = more.foldl act (ofActs id acts) := by
  simp [ofActs]

@[simp] theorem ofActs_concat (id : Nat) (acts : List Act) (a : Act) :
    ofActs id (acts ++ [a]) = (ofActs id acts).act a := by
  simp [ofActs]

theorem act_unbind_of_pop? {b : Block} {name : String} {h : Holding} {live : Stacks Holding}
    (hp : b.live.pop? name = some (h, live)) :
    b.act (.unbind name) = { b with live, freed := b.freed.push h.tag h } := by
  simp [act, unbind, hp]

theorem act_unbind_of_none {b : Block} {name : String} (hp : b.live.pop? name = none) :
    b.act (.unbind name) = b := by
  simp [act, unbind, hp]

theorem unbind_eq_ok {b b' : Block} {name : String} {r : Ref} (h : b.unbind name = .ok (r, b')) :
    b' = b.act (.unbind name) ∧ b.visible? name = some r := by
  refine ⟨by simp [act, h], ?_⟩
  unfold unbind at h
  split at h
  · next hold live hp =>
    cases h
    rw [visible?, Stacks.top?, Stacks.stack_of_pop? hp]
    rfl
  · cases h

@[simp] theorem id_act (b : Block) (a : Act) : (b.act a).id = b.id := by
  cases a with
  | bind ref name tag => unfold act hold; dsimp only; split <;> rfl
  | unbind name =>
    cases hp : b.live.pop? name with
    | none => rw [act_unbind_of_none hp]
    | some p => rw [act_unbind_of_pop? hp]

theorem id_foldl_act (b : Block) (acts : List Act) : (acts.foldl act b).id = b.id := by
  induction acts generalizing b with
  | nil => rfl
  | cons a acts ih => rw [List.foldl_cons, ih, id_act]

@[simp] theorem id_ofActs (id : Nat) (acts : List Act) : (ofActs id acts).id = id :=
  id_foldl_act _ acts

/-! ## What a name stands for -/

/-- The records bound to a name, the visible one first. -/
def bound (b : Block) (name : String) : List Ref := (b.live.stack name).map (·.ref)

theorem visible?_eq_head?_bound (b : Block) (name : String) :
    b.visible? name = (b.bound name).head? := by
  rw [bound, List.head?_map]
  rfl

theorem bound_act (b : Block) (a : Act) (name : String) :
    (b.act a).bound name = a.match name (b.bound name) := by
  cases a with
  | bind ref n tag =>
    by_cases h : n = name
    · subst h
      simp [act, bound, live_hold, Act.match]
    · simp [act, bound, live_hold, Act.match, h, Stacks.stack_push_of_ne (Ne.symm h)]
  | unbind n =>
    cases hp : b.live.pop? n with
    | none =>
      rw [act_unbind_of_none hp]
      by_cases h : n = name
      · subst h
        simp [bound, Act.match, Stacks.pop?_eq_none_iff.1 hp]
      · simp [Act.match, h]
    | some p =>
      rw [act_unbind_of_pop? hp]
      by_cases h : n = name
      · subst h
        simp [bound, Act.match, Stacks.stack_of_pop? hp]
      · simp [bound, Act.match, h, Stacks.stack_of_pop?_of_ne (Ne.symm h) hp]

/-- **A block keeps, under each name, the declarations that no release is matched with.** -/
theorem bound_ofActs (id : Nat) (acts : List Act) (name : String) :
    (ofActs id acts).bound name = standing name acts := by
  induction acts using List.reverseRecOn with
  | nil => rfl
  | append_singleton acts a ih => rw [ofActs_concat, bound_act, ih, standing_concat]

theorem visible?_ofActs (id : Nat) (acts : List Act) (name : String) :
    (ofActs id acts).visible? name = (standing name acts).head? := by
  rw [visible?_eq_head?_bound, bound_ofActs]

end Block

end BlockSlots
