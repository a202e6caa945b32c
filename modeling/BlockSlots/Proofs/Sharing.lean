import BlockSlots.Proofs.Records
import BlockSlots.Proofs.Resolution

/-!
# Bindings that share a slot

A slot passes from one binding to another only when the first one is released, and never to another
block or another type.

* `releases_of_sameSlot`: of two records in one slot, the first was released before the second was
  declared.
* `apart_of_standing`: bindings that live at the same time have different slots.
* `slots_not_aliased`: both, for every document that is accepted.
-/

set_option autoImplicit false

namespace BlockSlots

open Text

/-- The bindings of two records differ in the number of their slot, and also in the number of its
type or the number within the type. -/
def Ledger.Apart (ledger : Ledger) (r s : Ref) : Prop :=
  ∃ v w, ledger.binding? r = some v ∧ ledger.binding? s = some w ∧ v.slot.id ≠ w.slot.id ∧
    (v.slot.kind, v.slot.index) ≠ (w.slot.kind, w.slot.index)

namespace Draft

variable {lines : List String} {d : Draft} {r₁ r₂ : Ref} {row₁ row₂ : Row}

/-- **A slot that two records share.** The records belong to one block and have one type and one
slot; in front of the declaration of the second a release is matched with the first. -/
theorem Tracks.releases_of_sameSlot (ht : Tracks lines d) (hlt : r₁ < r₂)
    (h₁ : d.ledger.get? r₁ = some row₁) (h₂ : d.ledger.get? r₂ = some row₂)
    (hsame : row₁.sameSlot row₂ = true) :
    ∃ b before, before ++ [.bind r₂ row₂.binding.name row₂.binding.tag] <+:
        history (outline lines) b ∧
      .bind r₁ row₁.binding.name row₁.binding.tag ∈ before ∧ Releases before r₁ ∧
      row₁.binding.tag = row₂.binding.tag ∧ row₁.binding.slot = row₂.binding.slot := by
  obtain ⟨hblock, hid⟩ := Row.sameSlot_iff.1 hsame
  obtain ⟨b, hb₁⟩ := ht.owned (Ledger.lt_size_of_get? h₁)
  obtain ⟨c, hb₂⟩ := ht.owned (Ledger.lt_size_of_get? h₂)
  have hbc : b = c := ht.eq_of_block_eq hb₁ hb₂ h₁ h₂ hblock
  subst hbc
  obtain ⟨before₁, name₁, tag₁, used₁, hp₁, hrow₁⟩ := ht.get?_of_mem_records hb₁
  obtain ⟨before₂, name₂, tag₂, used₂, hp₂, hrow₂⟩ := ht.get?_of_mem_records hb₂
  rw [hrow₁, Option.some.injEq] at h₁
  rw [hrow₂, Option.some.injEq] at h₂
  subst h₁ h₂
  have hfirst := bind_prefix_of_lt hp₁ hp₂ hlt
  obtain ⟨htag, hslot, hreleases⟩ := Block.releases_of_id_eq hfirst hid
  exact ⟨b, before₂, hp₂, hfirst.subset (by simp), hreleases, htag, hslot⟩

/-- **Bindings that live at the same time.** -/
theorem Tracks.apart_of_standing (ht : Tracks lines d) {b : Nat} {acts : List Act}
    (hacts : acts <+: history (outline lines) b) {name₁ name₂ : String}
    (h₁ : r₁ ∈ standing name₁ acts) (h₂ : r₂ ∈ standing name₂ acts) (hne : r₁ ≠ r₂) :
    d.ledger.Apart r₁ r₂ := by
  obtain ⟨x, hx, y, hy, rfl, rfl, hid, hkind⟩ :=
    Block.ne_of_standing (entered ((outline lines).take b)) h₁ h₂ hne
  obtain ⟨_, _, hrow₁⟩ := ht.get?_of_mem_held_of_isPrefix hacts hx
  obtain ⟨_, _, hrow₂⟩ := ht.get?_of_mem_held_of_isPrefix hacts hy
  exact ⟨_, _, by rw [Ledger.binding?, hrow₁]; rfl, by rw [Ledger.binding?, hrow₂]; rfl, hid, hkind⟩

/-- Records of different blocks do not share a slot. -/
theorem Tracks.sameSlot_of_ne (ht : Tracks lines d) {b c : Nat} (hne : b ≠ c)
    (hb : r₁ ∈ records (history (outline lines) b)) (hc : r₂ ∈ records (history (outline lines) c))
    (h₁ : d.ledger.get? r₁ = some row₁) (h₂ : d.ledger.get? r₂ = some row₂) :
    row₁.sameSlot row₂ = false := by
  rw [Bool.eq_false_iff]
  intro hsame
  exact hne (ht.eq_of_block_eq hb hc h₁ h₂ (Row.sameSlot_iff.1 hsame).1)

end Draft

/-- **Slots are shared, but never by two bindings at a time.** -/
theorem Plan.slots_not_aliased {settings : Settings} {text : String} {p : Plan}
    (h : Plan.ofText settings text = .ok p) :
    (∀ r₁ r₂ row₁ row₂, r₁ < r₂ → p.ledger.get? r₁ = some row₁ → p.ledger.get? r₂ = some row₂ →
      row₁.sameSlot row₂ = true →
      ∃ b before, before ++ [.bind r₂ row₂.binding.name row₂.binding.tag] <+:
          history (outline (Text.lines text)) b ∧
        .bind r₁ row₁.binding.name row₁.binding.tag ∈ before ∧ Releases before r₁ ∧
        row₁.binding.tag = row₂.binding.tag ∧ row₁.binding.slot = row₂.binding.slot) ∧
    (∀ b acts, acts <+: history (outline (Text.lines text)) b → ∀ name₁ name₂,
      ∀ r₁ ∈ standing name₁ acts, ∀ r₂ ∈ standing name₂ acts, r₁ ≠ r₂ → p.ledger.Apart r₁ r₂) ∧
    ∀ b c r₁ r₂ row₁ row₂, b ≠ c → r₁ ∈ records (history (outline (Text.lines text)) b) →
      r₂ ∈ records (history (outline (Text.lines text)) c) → p.ledger.get? r₁ = some row₁ →
      p.ledger.get? r₂ = some row₂ → row₁.sameSlot row₂ = false := by
  obtain ⟨d, ht, -, rfl⟩ := Plan.exists_tracks h
  refine ⟨?_, ?_, ?_⟩
  · intro r₁ r₂ row₁ row₂ hlt h₁ h₂ hsame
    exact ht.releases_of_sameSlot hlt h₁ h₂ hsame
  · intro b acts hacts name₁ name₂ r₁ h₁ r₂ h₂ hne
    exact ht.apart_of_standing hacts h₁ h₂ hne
  · intro b c r₁ r₂ row₁ row₂ hne hb hc h₁ h₂
    exact ht.sameSlot_of_ne hne hb hc h₁ h₂

theorem Plan.slots_not_aliased_sample : ∃ p, Plan.ofText {} Plan.sample = .ok p ∧
    p.ledger.Apart 0 2 := by
  have hok := Plan.isOk_sample
  cases hp : Plan.ofText {} Plan.sample with
  | error e => rw [hp] at hok; cases hok
  | ok p =>
    obtain ⟨-, hlive, -⟩ := Plan.slots_not_aliased hp
    refine ⟨p, rfl, ?_⟩
    -- after the third line the second `x` hides the first
    have hx : standing "x" (history (outline ((Text.lines Plan.sample).take 3)) 0) = [2, 0] := by
      decide +kernel
    have hacts := history_take_isPrefix (outline (Text.lines Plan.sample)) 3 0
    rw [← outline_take] at hacts
    exact hlive 0 _ hacts "x" "x" 0 (by rw [hx]; decide) 2 (by rw [hx]; decide) (by decide)

end BlockSlots
