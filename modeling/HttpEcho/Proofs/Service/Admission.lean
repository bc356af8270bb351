import HttpEcho.Proofs.Service.Loop

/-!
# Admission

The loop accepts connections as soon as it has slots for them: if at some time as many slots are
free, or in its hand, as there are connections next in the offers, it accepts all of them by the
time at which those are offered (`Service.Leads.admits`). How many slots are free then is known from
the connections accepted before (`Service.Leads.afterConnections`).
-/

namespace HttpEcho

namespace Offer

/-- How long an accept waits. -/
def ms : Offer → Nat
  | .wait ms => ms
  | _ => 0

/-- How long the accepts of some offers wait. -/
def waits : List Offer → Nat
  | [] => 0
  | offer :: rest => offer.ms + waits rest

/-- The offers after the next connection. -/
def afterConnection : List Offer → List Offer
  | [] => []
  | .connection _ :: rest => rest
  | .fail _ :: rest => afterConnection rest
  | .wait _ :: rest => afterConnection rest

/-- The offers after a number of connections. -/
def afterConnections : Nat → List Offer → List Offer
  | 0, offers => offers
  | number + 1, offers => afterConnections number (afterConnection offers)

end Offer

namespace Service

open Slots (hasEnded)

variable {c : Context} {first? : Option Stop} {offers gap rest : List Offer} {number now time : Nat}
  {slots : Slots} {report : Report} {visitors : List Visitor}

/-- The first offer is the first one of a gap, or the gap is over and it is the first connection. -/
theorem cons_offers_cases {offer : Offer}
    (h : offer :: offers = gap ++ (visitors.map .connection ++ rest)) (hne : visitors ≠ []) :
    (∃ gap', gap = offer :: gap' ∧ offers = gap' ++ (visitors.map .connection ++ rest)) ∨
      gap = [] ∧ ∃ visitor visitors', visitors = visitor :: visitors' ∧
        offer = .connection visitor ∧ offers = visitors'.map .connection ++ rest := by
  rcases List.cons_eq_append_iff.1 h with ⟨hgap, hoffers⟩ | hgap
  · obtain ⟨visitor, visitors', rfl⟩ := List.exists_cons_of_ne_nil hne
    obtain ⟨hoffer, hrest⟩ := List.cons_eq_cons.1 hoffers
    exact .inr ⟨hgap, visitor, visitors', rfl, hoffer.symm, hrest.symm⟩
  · exact .inl hgap

/-- **The loop accepts as many connections as it has slots**, as soon as they are offered. -/
theorem Leads.admits (h : Leads c first? offers number now slots report)
    (hoffers : offers = gap ++ (visitors.map .connection ++ rest))
    (hgap : ∀ offer ∈ gap, offer.visitor? = none) (hnow : now ≤ time)
    (hroom : visitors.length ≤ slots.room time)
    (htold : ∀ number t, c.told? first? number = some t → time + Offer.waits gap < t) :
    visitors.length ≤ report.visits.length ∧
      ∀ v ∈ report.visits.take visitors.length, v.acceptedAt ≤ time + Offer.waits gap := by
  by_cases hnil : visitors = []
  · subst hnil
    exact ⟨Nat.zero_le _, List.forall_mem_nil _⟩
  induction h generalizing gap visitors time with
  | @stop offers number now t slots hstop hblocked =>
    -- the stop comes after the gap, when there are a slot and a connection for it
    have hlt := htold number t hstop
    cases hblocked with
    | slots hheld hfree =>
      have hpos := Nat.lt_of_lt_of_le (List.length_pos_iff.2 hnil) hroom
      have hle := hfree time (Slots.mem_freeFrom_of_room hheld hnow hpos)
      omega
    | nothing => simp [hnil] at hoffers
    | @wait _ ms _ _ hle =>
      obtain ⟨gap', rfl, -⟩ | ⟨-, _, _, -, hoffer, -⟩ := cons_offers_cases hoffers hnil
      · rw [Offer.waits, Offer.ms] at hlt
        omega
      · cases hoffer
  | @starve offers number now slots _ hheld hnone =>
    have hpos := Nat.lt_of_lt_of_le (List.length_pos_iff.2 hnil) hroom
    exact absurd (hnone ▸ Slots.mem_freeFrom_of_room hheld hnow hpos) (Set.notMem_empty _)
  | listen => simp [hnil] at hoffers
  | @take offers number now now' slots report hheld hleast _ _ ih =>
    have hallows : (slots.release now').Allows .take := ⟨hleast.1.2, hheld⟩
    have hpos := Nat.lt_of_lt_of_le (List.length_pos_iff.2 hnil) hroom
    have hnow' := hleast.2 (Slots.mem_freeFrom_of_room hheld hnow hpos)
    -- a slot that is taken counts as room until it is handed over
    have hsame : ((slots.release now').after .take).room time = slots.room time :=
      (Slots.room_take hallows time).trans (Slots.room_release hnow' slots)
    exact ih hoffers hgap hnow' (hsame ▸ hroom) htold hnil
  | @wait offers ms number now slots report _ _ _ ih =>
    obtain ⟨gap', rfl, hoffers'⟩ | ⟨-, _, _, -, hoffer, -⟩ := cons_offers_cases hoffers hnil
    · have hwaits : time + Offer.waits (.wait ms :: gap') = time + ms + Offer.waits gap' :=
        (Nat.add_assoc _ _ _).symm
      have hlater := slots.room_mono (Nat.le_add_right time ms)
      rw [hwaits] at htold ⊢
      exact ih hoffers' (List.forall_mem_cons.1 hgap).2 (Nat.add_le_add_right hnow ms)
        (Nat.le_trans hroom hlater) htold hnil
    · cases hoffer
  | @fail offers kind number now slots report hheld _ _ ih =>
    have hallows : slots.Allows .giveBack := hheld
    obtain ⟨gap', rfl, hoffers'⟩ | ⟨-, _, _, -, hoffer, -⟩ := cons_offers_cases hoffers hnil
    · have hwaits : Offer.waits (.fail kind :: gap') = Offer.waits gap' := Nat.zero_add _
      rw [hwaits] at htold ⊢
      exact ih hoffers' (List.forall_mem_cons.1 hgap).2 hnow
        (Slots.room_giveBack hallows time ▸ hroom) htold hnil
    · cases hoffer
  | @connection offers visitor number now slots visit report hheld _ hvisit _ ih =>
    have hallows : slots.Allows (.handOver visit.endedAt?) := hheld
    obtain ⟨gap', rfl, -⟩ | ⟨rfl, _, visitors', rfl, -, hoffers'⟩ := cons_offers_cases hoffers hnil
    · cases (List.forall_mem_cons.1 hgap).1
    · have hat : visit.acceptedAt ≤ time + Offer.waits [] := by
        subst hvisit
        exact hnow
      by_cases hnil' : visitors' = []
      · subst hnil'
        exact ⟨Nat.succ_le_succ (Nat.zero_le _), List.forall_mem_singleton.2 hat⟩
      · -- the connection takes one of the slots that there was room for
        have hroom' : visitors'.length ≤ (slots.after (.handOver visit.endedAt?)).room time := by
          have hafter := Slots.room_handOver hallows time
          have hone := List.countP_le_length (p := fun ending => !hasEnded time ending)
            (l := [visit.endedAt?])
          rw [List.length_cons] at hroom
          rw [List.length_singleton] at hone
          omega
        obtain ⟨hlength, hrest⟩ := ih hoffers' (List.forall_mem_nil _) hnow hroom' htold hnil'
        exact ⟨Nat.succ_le_succ hlength, List.forall_mem_cons.2 ⟨hat, hrest⟩⟩

/-- After a visit the loop goes on with the offers after its connection, at the time of its accept.
The slot of the connection is gone unless it has ended. -/
theorem Leads.afterConnection (h : Leads c first? offers number now slots report) {visit : Visit}
    {visits : List Visit} (hvisits : report.visits = visit :: visits) : ∃ slots' report',
      Leads c first? (Offer.afterConnection offers) (number + 1) visit.acceptedAt slots' report' ∧
        report'.visits = visits ∧ now ≤ visit.acceptedAt ∧ ∀ time, visit.acceptedAt ≤ time →
          slots'.room time + [visit].countP (fun v => !hasEnded time v.endedAt?) =
            slots.room time := by
  induction h with
  | stop | starve | listen => cases hvisits
  | @take offers number now now' slots report hheld hleast _ _ ih =>
    obtain ⟨slots', report', hleads, hrest, hle, hroom⟩ := ih hvisits
    have hallows : (slots.release now').Allows .take := ⟨hleast.1.2, hheld⟩
    refine ⟨slots', report', hleads, hrest, Nat.le_trans hleast.1.1 hle, fun time htime => ?_⟩
    rw [hroom time htime, Slots.room_take hallows, Slots.room_release (Nat.le_trans hle htime)]
  | wait _ _ _ ih =>
    obtain ⟨slots', report', hleads, hrest, hle, hroom⟩ := ih hvisits
    exact ⟨slots', report', hleads, hrest, Nat.le_trans (Nat.le_add_right _ _) hle, hroom⟩
  | @fail rest kind number now slots report hheld _ _ ih =>
    obtain ⟨slots', report', hleads, hrest, hle, hroom⟩ := ih hvisits
    have hallows : slots.Allows .giveBack := hheld
    refine ⟨slots', report', hleads, hrest, hle, fun time htime => ?_⟩
    rw [hroom time htime, Slots.room_giveBack hallows]
  | @connection rest visitor number now slots visit' report hheld _ hvisit hleads _ =>
    obtain ⟨rfl, rfl⟩ := List.cons_eq_cons.1 hvisits
    have hallows : slots.Allows (.handOver visit'.endedAt?) := hheld
    subst hvisit
    exact ⟨_, report, hleads, rfl, Nat.le_refl _, fun time _ => Slots.room_handOver hallows time⟩

/-- **The loop after some of its visits**: it goes on with the offers after their connections, and
of its slots those are gone whose connections have not ended. -/
theorem Leads.afterConnections (h : Leads c first? offers number now slots report) (k : Nat)
    (hk : k ≤ report.visits.length) : ∃ now' slots' report',
      Leads c first? (Offer.afterConnections k offers) (number + k) now' slots' report' ∧
        report'.visits = report.visits.drop k ∧
          ∀ time, now ≤ time → (∀ v ∈ report.visits.take k, v.acceptedAt ≤ time) →
            now' ≤ time ∧ slots'.room time +
              (report.visits.take k).countP (fun v => !hasEnded time v.endedAt?) =
                slots.room time := by
  induction k generalizing offers number now slots report with
  | zero => exact ⟨now, slots, report, h, rfl, fun time hnow _ => ⟨hnow, rfl⟩⟩
  | succ k ih =>
    cases hvisits : report.visits with
    | nil => rw [hvisits] at hk; cases hk
    | cons visit visits =>
      obtain ⟨slots₁, report₁, hleads₁, rfl, hle, hroom₁⟩ := h.afterConnection hvisits
      rw [hvisits] at hk
      obtain ⟨now', slots', report', hleads, hrest, hroom⟩ := ih hleads₁ (Nat.le_of_succ_le_succ hk)
      have hnumber : number + 1 + k = number + (k + 1) := by omega
      refine ⟨now', slots', report', hnumber ▸ hleads, hrest, fun time hnow haccepted => ?_⟩
      obtain ⟨hvisit, haccepted'⟩ := List.forall_mem_cons.1 haccepted
      obtain ⟨hnow', hroom'⟩ := hroom time hvisit haccepted'
      refine ⟨hnow', ?_⟩
      rw [← hroom₁ time hvisit, ← hroom', List.take_succ_cons, List.countP_cons, List.countP_cons,
        List.countP_nil]
      omega

/-- **The loop accepts connections as soon as it has slots for them.** -/
theorem loop_admits {k : Nat} (hk : k ≤ (loop c first? offers).visits.length)
    (hoffers : Offer.afterConnections k offers = gap ++ (visitors.map .connection ++ rest))
    (hgap : ∀ offer ∈ gap, offer.visitor? = none)
    (haccepted : ∀ v ∈ (loop c first? offers).visits.take k, v.acceptedAt ≤ time)
    (hroom : visitors.length +
      ((loop c first? offers).visits.take k).countP (fun v => !hasEnded time v.endedAt?) ≤
        c.settings.maxConnections)
    (htold : ∀ number t, c.told? first? number = some t → time + Offer.waits gap < t) :
    k + visitors.length ≤ (loop c first? offers).visits.length ∧
      ∀ v ∈ (loop c first? offers).visits.take (k + visitors.length),
        v.acceptedAt ≤ time + Offer.waits gap := by
  obtain ⟨now, slots, report, hleads, hrest, hall⟩ :=
    (leads_loop c first? offers).afterConnections k hk
  obtain ⟨hnow, hsame⟩ := hall time (Nat.zero_le _) haccepted
  rw [Slots.room_fresh] at hsame
  obtain ⟨hlength, hvisits⟩ := hleads.admits hoffers hgap hnow (by omega) htold
  rw [hrest, List.length_drop] at hlength
  refine ⟨by omega, fun v hv => ?_⟩
  rw [List.take_add, List.mem_append] at hv
  rcases hv with hv | hv
  · exact Nat.le_trans (haccepted v hv) (Nat.le_add_right _ _)
  · exact hvisits v (hrest ▸ hv)

end Service

end HttpEcho
