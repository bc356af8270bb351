import HttpEcho.Proofs.Service.Loop
import Mathlib.Order.Bounds.Basic

/-!
# Failed accepts

A failed accept makes no difference to the connections: a service accepts the same ones at the same
times, and returns at the same time, if the failures are left out of its offers
(`Service.sameVisits_loop`). The loop gives its slot back and takes one again at once.
-/

namespace HttpEcho

/-- Whether an offer is a failed accept. -/
def Offer.isFail : Offer → Bool
  | .fail _ => true
  | _ => false

/-- Offers without the failed accepts. -/
def Offer.withoutFails (offers : List Offer) : List Offer := offers.filter (!·.isFail)

namespace Service

/-- Reports of the same visits that return at the same time. -/
def SameVisits (r r' : Report) : Prop := r.visits = r'.visits ∧ r.returnedAt = r'.returnedAt

variable {c : Context} {first? : Option Stop} {number now : Nat} {slots slots' : Slots}

theorem acquire_congr (h : Slots.Same now slots slots') (stop? : Option Nat) :
    acquire stop? now slots = acquire stop? now slots' := by
  have h' : slots.release now = slots'.release now := h
  rw [acquire, acquire, h']

/-- Waiting for a slot makes no difference if the slots are the same from now on. -/
theorem sameVisits_withSlot {goOn goOn' : Nat → Slots → Report}
    (hsame : Slots.Same now slots slots') (hheld : slots.held = 0)
    (hgoOn : ∀ now' slots', slots'.held = 1 →
      (∀ t, c.told? first? number = some t → now' < t) →
        SameVisits (goOn now' slots') (goOn' now' slots')) :
    SameVisits (withSlot c (c.told? first? number) now slots goOn)
      (withSlot c (c.told? first? number) now slots' goOn') := by
  unfold withSlot
  rw [← acquire_congr hsame]
  obtain ⟨now', hslot, -, htold⟩ | ⟨t, -, hstopped, -⟩ | ⟨-, hnever, -⟩ :=
    acquire_cases (c.told? first? number) now slots
  · have hheld' : ((slots.release now').after .take).held = 1 := congrArg (· + 1) hheld
    rw [hslot]
    exact hgoOn now' _ hheld' htold
  · rw [hstopped]
    exact ⟨rfl, rfl⟩
  · rw [hnever]
    exact ⟨rfl, rfl⟩

/-- With a slot that is free the loop goes on at once. -/
theorem withSlot_of_free (htold : ∀ t, c.told? first? number = some t → now < t)
    (hfree : 0 < (slots.release now).free) (goOn : Nat → Slots → Report) :
    withSlot c (c.told? first? number) now slots goOn =
      (goOn now ((slots.release now).after .take)).afterMove now .take
        ((slots.release now).after .take) := by
  obtain ⟨now', hslot, hleast, -⟩ | ⟨t, ht, -, hle⟩ | ⟨-, -, hnone⟩ :=
    acquire_cases (c.told? first? number) now slots
  · rw [withSlot, hslot, hleast.unique (Slots.isLeast_freeFrom_of_pos hfree)]
  · exact absurd (hle now ⟨Nat.le_refl _, hfree⟩) (Nat.not_le.2 (htold t ht))
  · have hmem : now ∈ slots.freeFrom now := ⟨Nat.le_refl _, hfree⟩
    exact absurd (hnone ▸ hmem) (Set.notMem_empty _)

/-- Accepting makes no difference if the slots are the same from now on, and offers that fail are
left out. -/
theorem sameVisits_accept (offers : List Offer) : ∀ (number now : Nat) (slots slots' : Slots),
    slots.held = 1 → Slots.Same now slots slots' →
      (∀ t, c.told? first? number = some t → now < t) →
        SameVisits (accept c first? offers number now slots)
          (accept c first? (Offer.withoutFails offers) number now slots') := by
  induction offers with
  | nil =>
    intro number now slots slots' _ _ _
    rw [Offer.withoutFails, List.filter_nil, accept, accept]
    exact ⟨rfl, rfl⟩
  | cons offer rest ih =>
    intro number now slots slots' hheld hsame hnow
    cases offer with
    | wait ms =>
      have hwait : Offer.withoutFails (.wait ms :: rest) =
          .wait ms :: Offer.withoutFails rest := rfl
      rw [hwait, accept, accept]
      cases hstopped : (c.told? first? number).filter (· ≤ now + ms) with
      | some t => exact ⟨rfl, rfl⟩
      | none =>
        have hlater := filter_le_eq_none_iff.1 hstopped
        exact ih number (now + ms) slots slots' hheld (hsame.mono (Nat.le_add_right _ _)) hlater
    | fail kind =>
      -- the slot that is given back is free, and is taken again at once
      have hfree : 0 < ((slots.after .giveBack).release now).free :=
        Nat.lt_of_lt_of_le (Nat.succ_pos slots.free) (Nat.le_add_right _ _)
      have hheld' : (((slots.after .giveBack).release now).after .take).held = 1 := by
        show slots.held - 1 + 1 = 1
        rw [hheld]
      have hagain := (Slots.same_giveBack_take hheld now).trans hsame
      obtain ⟨hvisits, hreturned⟩ := ih number now _ slots' hheld' hagain hnow
      rw [accept, withSlot_of_free hnow hfree]
      exact ⟨hvisits, hreturned⟩
    | connection visitor =>
      have hheld' : ∀ ending, (slots.after (.handOver ending)).held = 0 :=
        fun _ => congrArg (· - 1) hheld
      have hsame' : ∀ ending, Slots.Same now (slots.after (.handOver ending))
          (slots'.after (.handOver ending)) := hsame.handOver
      obtain ⟨hvisits, hreturned⟩ := sameVisits_withSlot (hsame' _) (hheld' _)
        fun now' slots'' hheld'' htold => ih (number + 1) now' slots'' slots'' hheld'' rfl htold
      exact ⟨congrArg (_ :: ·) hvisits, hreturned⟩

/-- **Failed accepts make no difference** to the visits of a loop and to its end. -/
theorem sameVisits_loop (c : Context) (first? : Option Stop) (offers : List Offer) :
    SameVisits (loop c first? offers) (loop c first? (Offer.withoutFails offers)) :=
  sameVisits_withSlot rfl rfl fun now slots hheld htold =>
    sameVisits_accept offers 0 now slots slots hheld rfl htold

end Service

end HttpEcho
