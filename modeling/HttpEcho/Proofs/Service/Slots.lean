import HttpEcho.Service
import Mathlib.Data.Set.Basic
import Mathlib.Order.Bounds.Defs

/-!
# Slots

To release the slots of connections that have ended twice is to release them at the later time
(`Slots.release_release`). What the loop can have by a time is kept by its moves, but for a slot
that is handed over, which is gone until its connection ends (`Slots.room_after`). The loop takes a
slot as soon as there is a free one, unless it is told to stop by then (`Service.acquire_cases`).
-/

namespace HttpEcho

namespace Slots

variable {s s' : Slots} {now time : Nat} {ending : Option Nat} {move : Move}

/-- What a move needs: a free slot while the loop has none, or a slot in its hand. -/
def Allows (s : Slots) : Move → Prop
  | .take => 0 < s.free ∧ s.held = 0
  | .giveBack | .handOver _ => s.held = 1

/-- The ending of the connection that a move hands a slot over to. -/
def Move.ending? : Move → Option (Option Nat)
  | .handOver ending => some ending
  | _ => none

/-- The times from `now` on at which there is a free slot, if the loop does not move. -/
def freeFrom (now : Nat) (s : Slots) : Set Nat := {time | now ≤ time ∧ 0 < (s.release time).free}

/-! ### Releasing -/

/-- A slot is given back by its ending, if that is not later. -/
theorem hasEnded_iff : hasEnded time ending ↔ ∃ t, ending = some t ∧ t ≤ time := by
  cases ending with
  | none => exact ⟨nofun, nofun⟩
  | some t =>
    rw [hasEnded, Option.any_some, decide_eq_true_eq]
    exact ⟨fun hle => ⟨t, rfl, hle⟩, fun ⟨_, ht, hle⟩ => Option.some.inj ht ▸ hle⟩

/-- What has ended stays so. -/
theorem hasEnded_mono (h : now ≤ time) (hended : hasEnded now ending) : hasEnded time ending := by
  obtain ⟨t, rfl, hle⟩ := hasEnded_iff.1 hended
  exact hasEnded_iff.2 ⟨t, rfl, Nat.le_trans hle h⟩

@[simp] theorem held_release (now : Nat) (s : Slots) : (s.release now).held = s.held := rfl

/-- The slots of connections that have ended are free. -/
theorem free_release (now : Nat) (s : Slots) :
    (s.release now).free = s.free + s.serving.countP (hasEnded now) := rfl

/-- Those that end by a time have ended before an earlier one, or are still there then. -/
theorem countP_hasEnded_filter (h : now ≤ time) (endings : List (Option Nat)) :
    endings.countP (hasEnded time) =
      endings.countP (hasEnded now) + (endings.filter (!hasEnded now ·)).countP
        (hasEnded time) := by
  induction endings with
  | nil => rfl
  | cons ending endings ih =>
    by_cases hnow : hasEnded now ending
    · have htime := hasEnded_mono h hnow
      rw [List.countP_cons_of_pos htime, List.countP_cons_of_pos hnow,
        List.filter_cons_of_neg (by rw [hnow]; exact Bool.false_ne_true), ih]
      omega
    · have hfilter : (ending :: endings).filter (!hasEnded now ·) =
          ending :: endings.filter (!hasEnded now ·) := by
        rw [List.filter_cons, if_pos (by rw [eq_false_of_ne_true hnow]; rfl)]
      rw [List.countP_cons_of_neg hnow, hfilter, List.countP_cons, List.countP_cons, ih]
      omega

/-- Releasing twice is releasing at the later time. -/
theorem release_release (h : now ≤ time) (s : Slots) :
    (s.release now).release time = s.release time := by
  have hfree : s.free + s.serving.countP (hasEnded now) +
      (s.serving.filter (!hasEnded now ·)).countP (hasEnded time) =
        s.free + s.serving.countP (hasEnded time) := by
    rw [countP_hasEnded_filter h s.serving, Nat.add_assoc]
  have hserving : (s.serving.filter (!hasEnded now ·)).filter (!hasEnded time ·) =
      s.serving.filter (!hasEnded time ·) := by
    rw [List.filter_filter]
    refine List.filter_congr fun ending _ => ?_
    by_cases hnow : hasEnded now ending
    · rw [hnow, hasEnded_mono h hnow]
      rfl
    · rw [eq_false_of_ne_true hnow, Bool.not_false, Bool.and_true]
  exact Slots.mk.injEq .. ▸ ⟨hfree, rfl, hserving⟩

/-- Slots become free as time goes by. -/
theorem free_release_mono (h : now ≤ time) (s : Slots) :
    (s.release now).free ≤ (s.release time).free := by
  rw [free_release, free_release, countP_hasEnded_filter h]
  omega

/-! ### Moves -/

theorem held_after_le (h : s.Allows move) : (s.after move).held ≤ 1 := by
  cases move <;> simp only [Allows, after] at h ⊢ <;> omega

/-! ### Waiting for a free slot -/

/-- The next ending is the earliest one. -/
theorem mem_of_nextEnd? (h : s.nextEnd? = some time) :
    some time ∈ s.serving ∧ ∀ t, some t ∈ s.serving → time ≤ t := by
  obtain ⟨hmem, hle⟩ := List.min?_eq_some_iff.1 h
  refine ⟨?_, fun t ht => hle t (List.mem_filterMap.2 ⟨some t, ht, rfl⟩)⟩
  obtain ⟨ending, hending, heq⟩ := List.mem_filterMap.1 hmem
  exact heq ▸ hending

theorem notMem_of_nextEnd? (h : s.nextEnd? = none) (t : Nat) : some t ∉ s.serving := by
  intro hmem
  have hnil : s.serving.filterMap id = [] := List.min?_eq_none_iff.1 h
  have ht : t ∈ s.serving.filterMap id := List.mem_filterMap.2 ⟨some t, hmem, rfl⟩
  rw [hnil] at ht
  cases ht

/-- Slots become free as connections end. -/
theorem free_release_eq_of_forall (h : now ≤ time)
    (hnone : ∀ t, some t ∈ (s.release now).serving → time < t) :
    (s.release time).free = (s.release now).free := by
  rw [← release_release h s, free_release time (s.release now)]
  refine Nat.add_eq_left.2 (List.countP_eq_zero.2 fun ending hmem hended => ?_)
  obtain ⟨t, rfl, hle⟩ := hasEnded_iff.1 hended
  exact absurd (hnone t hmem) (Nat.not_lt.2 hle)

/-- A slot that is free is free at once. -/
theorem isLeast_freeFrom_of_pos (h : 0 < (s.release now).free) : IsLeast (s.freeFrom now) now :=
  ⟨⟨Nat.le_refl _, h⟩, fun _ ht => ht.1⟩

/-- If there is no free slot, the next one is that of the connection that ends next. -/
theorem isLeast_freeFrom_of_nextEnd? (hfree : (s.release now).free = 0)
    (h : (s.release now).nextEnd? = some time) : IsLeast (s.freeFrom now) time := by
  obtain ⟨hmem, hle⟩ := mem_of_nextEnd? h
  have hnow : now ≤ time := by
    have hserved := (List.mem_filter.1 hmem).2
    rw [hasEnded, Option.any_some, Bool.not_eq_true', decide_eq_false_iff_not] at hserved
    omega
  refine ⟨⟨hnow, ?_⟩, fun t ht => ?_⟩
  · rw [← release_release hnow s, free_release]
    have hended : hasEnded time (some time) := hasEnded_iff.2 ⟨time, rfl, Nat.le_refl _⟩
    exact Nat.add_pos_right _ (List.countP_pos_iff.2 ⟨some time, hmem, hended⟩)
  · obtain ⟨hnow', hpos⟩ := ht
    refine Nat.le_of_not_lt fun hlt => ?_
    rw [free_release_eq_of_forall hnow' fun u hu =>
      Nat.lt_of_lt_of_le hlt (hle u hu), hfree] at hpos
    exact absurd hpos (Nat.lt_irrefl 0)

/-- If there is no free slot and no connection ends, there will be none. -/
theorem freeFrom_of_nextEnd? (hfree : (s.release now).free = 0)
    (h : (s.release now).nextEnd? = none) : s.freeFrom now = ∅ := by
  refine Set.eq_empty_of_forall_notMem fun t ht => ?_
  obtain ⟨hnow, hpos⟩ := ht
  rw [free_release_eq_of_forall hnow fun u hu => absurd hu (notMem_of_nextEnd? h u), hfree] at hpos
  exact absurd hpos (Nat.lt_irrefl 0)

/-! ### Slots that are the same from a time on -/

/-- Slots are the same from a time on, once those of connections that have ended are free. -/
def Same (now : Nat) (s s' : Slots) : Prop := s.release now = s'.release now

/-- Giving back the slots of connections that have ended makes no difference from now on. -/
theorem same_release (now : Nat) (s : Slots) : Same now (s.release now) s :=
  release_release (Nat.le_refl now) s

theorem Same.held_eq (h : Same now s s') : s.held = s'.held := (Slots.mk.inj h).2.1

theorem Same.mono (h : s.Same now s') (hle : now ≤ time) : Same time s s' := by
  rw [Same, ← release_release hle s, ← release_release hle s', h]

theorem Same.giveBack (h : Same now s s') : Same now (s.after .giveBack) (s'.after .giveBack) := by
  obtain ⟨hfree, hheld, hserving⟩ := Slots.mk.inj h
  rw [Same, release, release, after, after, Slots.mk.injEq]
  exact ⟨by dsimp only; omega, congrArg (· - 1) hheld, hserving⟩

theorem Same.handOver (h : Same now s s') (ending : Option Nat) :
    Same now (s.after (.handOver ending)) (s'.after (.handOver ending)) := by
  obtain ⟨hfree, hheld, hserving⟩ := Slots.mk.inj h
  rw [Same, release, release, after, after, Slots.mk.injEq, List.countP_cons, List.countP_cons,
    List.filter_cons, List.filter_cons, hheld, hserving]
  exact ⟨by dsimp only; omega, rfl, rfl⟩

/-- The slots after giving one back and taking one at once are the same. -/
theorem same_giveBack_take (h : s.held = 1) (now : Nat) :
    Same now (((s.after .giveBack).release now).after .take) s := by
  have hfree : s.free + 1 + s.serving.countP (hasEnded now) - 1 =
      s.free + s.serving.countP (hasEnded now) := by omega
  have hheld : s.held - 1 + 1 = s.held := by omega
  have htaken : ((s.after .giveBack).release now).after .take = s.release now := by
    rw [release, after, release, after, hfree, hheld]
  rw [htaken]
  exact same_release now s

/-- A slot that is given back is free. -/
theorem free_giveBack_release (now : Nat) (s : Slots) :
    (((s.release now).after .giveBack).release now).free = (s.release now).free + 1 := by
  have hsame : Same now ((s.release now).after .giveBack) (s.after .giveBack) :=
    (same_release now s).giveBack
  have hfree : (((s.release now).after .giveBack).release now).free =
      ((s.after .giveBack).release now).free := congrArg free hsame
  rw [hfree, free_release, free_release, after]
  exact Nat.add_right_comm _ _ _

/-! ### Room -/

/-- How many slots the loop can have by a time if it does not move. -/
def room (time : Nat) (s : Slots) : Nat := s.held + (s.release time).free

theorem room_fresh (n time : Nat) : (fresh n).room time = n := Nat.zero_add n

theorem room_release (h : now ≤ time) (s : Slots) : (s.release now).room time = s.room time := by
  rw [room, room, release_release h, held_release]

theorem Same.room_eq (h : s.Same now s') (hle : now ≤ time) : s.room time = s'.room time := by
  rw [← room_release hle s, ← room_release hle s', h]

theorem room_mono (h : now ≤ time) (s : Slots) : s.room now ≤ s.room time :=
  Nat.add_le_add_left (free_release_mono h s) _

/-- Where there is room and no slot is held, a slot is free. -/
theorem mem_freeFrom_of_room (hheld : s.held = 0) (hnow : now ≤ time) (hroom : 0 < s.room time) :
    time ∈ s.freeFrom now := by
  rw [room, hheld, Nat.zero_add] at hroom
  exact ⟨hnow, hroom⟩

theorem room_take (h : s.Allows .take) (time : Nat) : (s.after .take).room time = s.room time := by
  simp only [Allows, room, free_release, after] at h ⊢
  omega

theorem room_giveBack (h : s.Allows .giveBack) (time : Nat) :
    (s.after .giveBack).room time = s.room time := by
  simp only [Allows, room, free_release, after] at h ⊢
  omega

/-- A slot that is handed over is there again when its connection has ended. -/
theorem room_handOver (h : s.Allows (.handOver ending)) (time : Nat) :
    (s.after (.handOver ending)).room time + [ending].countP (!hasEnded time ·) = s.room time := by
  simp only [Allows, room, free_release, after, List.countP_cons, List.countP_nil] at h ⊢
  cases hasEnded time ending <;> grind

/-- **What a move does to the room**: it takes away the slot of a connection until that ends. -/
theorem room_after (h : s.Allows move) (time : Nat) :
    (s.after move).room time + move.ending?.toList.countP (!hasEnded time ·) = s.room time := by
  cases move with
  | take => exact room_take h time
  | giveBack => exact room_giveBack h time
  | handOver ending => exact room_handOver h time

end Slots

namespace Service

/-- What waiting for a slot gives, said once: the first free slot if it is there before the stop, or
else the stop. -/
theorem acquire_cases (stop? : Option Nat) (now : Nat) (slots : Slots) :
    (∃ now', acquire stop? now slots = .slot now' ((slots.release now').after .take) ∧
        IsLeast (slots.freeFrom now) now' ∧ ∀ t, stop? = some t → now' < t) ∨
      (∃ t, stop? = some t ∧ acquire stop? now slots = .stopped (max now t) ∧
        ∀ u ∈ slots.freeFrom now, t ≤ u) ∨
      stop? = none ∧ acquire stop? now slots = .never ∧ slots.freeFrom now = ∅ := by
  by_cases htold : ∃ t, stop? = some t ∧ t ≤ now
  · obtain ⟨t, rfl, hle⟩ := htold
    refine .inr (.inl ⟨t, rfl, ?_, fun u hu => Nat.le_trans hle hu.1⟩)
    rw [acquire, Option.any_some, if_pos (decide_eq_true hle), Nat.max_eq_left hle]
  -- from here on the stop is later, and the first ending of a connection is compared with it
  have hlater : ∀ t, stop? = some t → now < t := fun t ht =>
    Nat.lt_of_not_le fun hle => htold ⟨t, ht, hle⟩
  have hany : ¬ stop?.any (· ≤ now) = true := by
    cases stop? with
    | none => exact nofun
    | some t =>
      rw [Option.any_some, decide_eq_true_eq]
      exact Nat.not_le.2 (hlater t rfl)
  rw [acquire, if_neg hany]
  dsimp only
  by_cases hpos : 0 < (slots.release now).free
  · rw [if_pos hpos]
    exact .inl ⟨now, rfl, Slots.isLeast_freeFrom_of_pos hpos, hlater⟩
  rw [if_neg hpos]
  have hfree := Nat.eq_zero_of_not_pos hpos
  cases hend : (slots.release now).nextEnd? with
  | none =>
    have hnever := Slots.freeFrom_of_nextEnd? hfree hend
    cases stop? with
    | none => exact .inr (.inr ⟨rfl, rfl, hnever⟩)
    | some t =>
      have hmax := Nat.max_eq_right (Nat.le_of_lt (hlater t rfl))
      exact .inr (.inl ⟨t, rfl, congrArg Acquired.stopped hmax.symm, hnever ▸ nofun⟩)
  | some free =>
    have hleast := Slots.isLeast_freeFrom_of_nextEnd? hfree hend
    have hslot : Acquired.slot free (((slots.release now).release free).after .take) =
        .slot free ((slots.release free).after .take) := by
      rw [Slots.release_release hleast.1.1 slots]
    cases stop? with
    | none => exact .inl ⟨free, hslot, hleast, nofun⟩
    | some t =>
      dsimp only
      by_cases hle : t ≤ free
      · have hmax := Nat.max_eq_right (Nat.le_of_lt (hlater t rfl))
        refine .inr (.inl ⟨t, rfl, (if_pos hle).trans (congrArg Acquired.stopped hmax.symm), ?_⟩)
        exact fun u hu => Nat.le_trans hle (hleast.2 hu)
      · refine .inl ⟨free, (if_neg hle).trans hslot, hleast, ?_⟩
        rintro _ ⟨⟩
        exact Nat.lt_of_not_le hle

end Service

end HttpEcho
