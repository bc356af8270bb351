import HttpEcho.Proofs.Service.Slots

/-!
# The moves of the accept loop

`Service.Leads` says once what the loop can do: without a slot it takes the first one that is free,
with one it takes the next offer, and it stops when it is told to. The loop is a sequence of such
moves (`Service.leads_loop`), and what is true of every report of the loop is proved along them.
-/

namespace HttpEcho

/-- The connection that an offer is. -/
def Offer.visitor? : Offer → Option Visitor
  | .connection visitor => some visitor
  | _ => none

namespace Service

/-- What keeps the loop from taking the next offer by a time: no slot is free before, or nothing is
offered. -/
inductive Blocked (time : Nat) : List Offer → Nat → Slots → Prop
  | slots {offers : List Offer} {now : Nat} {slots : Slots} (hheld : slots.held = 0)
      (hfree : ∀ t ∈ slots.freeFrom now, time ≤ t) : Blocked time offers now slots
  | nothing {now : Nat} {slots : Slots} : Blocked time [] now slots
  | wait {rest : List Offer} {ms now : Nat} {slots : Slots} (hle : time ≤ now + ms) :
      Blocked time (.wait ms :: rest) now slots

/-- What the loop does from a point on: the offers that are left, the number of connections accepted
so far, the time, the slots, and what comes of it. -/
inductive Leads (c : Context) (first? : Option Stop) :
    List Offer → Nat → Nat → Slots → Report → Prop
  /-- The loop is told to stop. -/
  | stop {offers : List Offer} {number now t : Nat} {slots : Slots}
      (htold : c.told? first? number = some t) (hblocked : Blocked t offers now slots) :
      Leads c first? offers number now slots (stopped c (max now t))
  /-- No slot will become free. -/
  | starve {offers : List Offer} {number now : Nat} {slots : Slots}
      (htold : c.told? first? number = none) (hheld : slots.held = 0)
      (hnone : slots.freeFrom now = ∅) : Leads c first? offers number now slots waiting
  /-- Nothing more is offered. -/
  | listen {number now : Nat} {slots : Slots} (htold : c.told? first? number = none) :
      Leads c first? [] number now slots waiting
  /-- The loop takes a slot. -/
  | take {offers : List Offer} {number now now' : Nat} {slots : Slots} {report : Report}
      (hheld : slots.held = 0) (hleast : IsLeast (slots.freeFrom now) now')
      (htold : ∀ t, c.told? first? number = some t → now' < t) :
      Leads c first? offers number now' ((slots.release now').after .take) report →
        Leads c first? offers number now slots
          (report.afterMove now' .take ((slots.release now').after .take))
  /-- The accept waits. -/
  | wait {rest : List Offer} {ms number now : Nat} {slots : Slots} {report : Report}
      (hheld : slots.held = 1) (htold : ∀ t, c.told? first? number = some t → now + ms < t) :
      Leads c first? rest number (now + ms) slots report →
        Leads c first? (.wait ms :: rest) number now slots report
  /-- The accept fails. -/
  | fail {rest : List Offer} {kind : FaultKind} {number now : Nat} {slots : Slots} {report : Report}
      (hheld : slots.held = 1) (htold : ∀ t, c.told? first? number = some t → now < t) :
      Leads c first? rest number now (slots.after .giveBack) report →
        Leads c first? (.fail kind :: rest) number now slots
          ((report.afterLog now [.acceptFailed kind.fault]).afterMove now .giveBack
            (slots.after .giveBack))
  /-- A connection is accepted. -/
  | connection {rest : List Offer} {visitor : Visitor} {number now : Nat} {slots : Slots}
      {visit : Visit} {report : Report} (hheld : slots.held = 1)
      (htold : ∀ t, c.told? first? number = some t → now < t)
      (hvisit : Visit.ofVisitor c.settings c.stop? number now visitor = visit) :
      Leads c first? rest (number + 1) now (slots.after (.handOver visit.endedAt?)) report →
        Leads c first? (.connection visitor :: rest) number now slots
          (((report.afterVisit visit).afterLog now (c.welcome number visitor)).afterMove now
            (.handOver visit.endedAt?) (slots.after (.handOver visit.endedAt?)))

variable {c : Context} {first? : Option Stop} {offers : List Offer} {number now : Nat}
  {slots : Slots}

/-- No stop comes by a time. -/
theorem filter_le_eq_none_iff {stop? : Option Nat} {time : Nat} :
    stop?.filter (· ≤ time) = none ↔ ∀ t, stop? = some t → time < t := by
  simp only [Option.filter_eq_none_iff, decide_eq_true_eq, Nat.not_le]

/-- Without a slot the loop waits for one. -/
theorem leads_withSlot (hheld : slots.held = 0)
    (haccept : ∀ now' slots', slots'.held = 1 →
      (∀ t, c.told? first? number = some t → now' < t) →
        Leads c first? offers number now' slots' (accept c first? offers number now' slots')) :
    Leads c first? offers number now slots
      (withSlot c (c.told? first? number) now slots (accept c first? offers number)) := by
  unfold withSlot
  obtain ⟨now', hslot, hleast, htold⟩ | ⟨t, htold, hstopped, hfree⟩ | ⟨htold, hnever, hnone⟩ :=
    acquire_cases (c.told? first? number) now slots
  · have hheld' : ((slots.release now').after .take).held = 1 := congrArg (· + 1) hheld
    rw [hslot]
    exact .take hheld hleast htold (haccept _ _ hheld' htold)
  · rw [hstopped]
    exact .stop htold (.slots hheld hfree)
  · rw [hnever]
    exact .starve htold hheld hnone

/-- With a slot in its hand the loop takes the next offer. -/
theorem leads_accept (offers : List Offer) : ∀ (number now : Nat) (slots : Slots), slots.held = 1 →
    (∀ t, c.told? first? number = some t → now < t) →
      Leads c first? offers number now slots (accept c first? offers number now slots) := by
  have hstop : ∀ {offers : List Offer} {number now t : Nat} {slots : Slots},
      c.told? first? number = some t → now < t → Blocked t offers now slots →
        Leads c first? offers number now slots (stopped c t) := by
    intro offers number now t slots htold hlt hblocked
    have hstop : Leads c first? offers number now slots (stopped c (max now t)) :=
      .stop htold hblocked
    rwa [Nat.max_eq_right (Nat.le_of_lt hlt)] at hstop
  induction offers with
  | nil =>
    intro number now slots hheld hnow
    rw [accept]
    cases htold : c.told? first? number with
    | none => exact .listen htold
    | some t => exact hstop htold (hnow t htold) .nothing
  | cons offer rest ih =>
    intro number now slots hheld hnow
    cases offer with
    | wait ms =>
      rw [accept]
      cases hstopped : (c.told? first? number).filter (· ≤ now + ms) with
      | some t =>
        obtain ⟨htold, hle⟩ := Option.filter_eq_some_iff.1 hstopped
        exact hstop htold (hnow t htold) (.wait (of_decide_eq_true hle))
      | none =>
        have htold := filter_le_eq_none_iff.1 hstopped
        exact .wait hheld htold (ih number (now + ms) slots hheld htold)
    | fail kind =>
      have hheld' : (slots.after .giveBack).held = 0 := congrArg (· - 1) hheld
      exact .fail hheld hnow (leads_withSlot hheld' (ih number))
    | connection visitor =>
      have hheld' : ∀ ending, (slots.after (.handOver ending)).held = 0 :=
        fun _ => congrArg (· - 1) hheld
      exact .connection hheld hnow rfl (leads_withSlot (hheld' _) (ih (number + 1)))

/-- **The loop is a sequence of moves.** -/
theorem leads_loop (c : Context) (first? : Option Stop) (offers : List Offer) :
    Leads c first? offers 0 0 (.fresh c.settings.maxConnections) (loop c first? offers) :=
  leads_withSlot rfl (leads_accept offers 0)

/-! ### Whom the loop accepts -/

/-- Which connections the loop accepts, and when: those that are offered, in their order. -/
structure Takes (c : Context) (first? : Option Stop) (offers : List Offer) (number now : Nat)
    (visits : List Visit) : Prop where
  numbers : visits.map Visit.number = List.range' number visits.length
  visitors : visits.map Visit.visitor <+: offers.filterMap Offer.visitor?
  now_le : ∀ v ∈ visits, now ≤ v.acceptedAt
  sorted : visits.Pairwise (·.acceptedAt ≤ ·.acceptedAt)
  eq_ofVisitor : ∀ v ∈ visits,
    Visit.ofVisitor c.settings c.stop? v.number v.acceptedAt v.visitor = v
  lt_told : ∀ v ∈ visits, ∀ t, c.told? first? v.number = some t → v.acceptedAt < t

variable {report : Report} {visits : List Visit}

/-- A visit is found by its number. -/
theorem Takes.number_getElem (h : Takes c first? offers number now visits) {i : Nat}
    (hi : i < visits.length) : visits[i].number = number + i := by
  have hget : (visits.map Visit.number)[i]? = some (number + i) := by
    rw [h.numbers, List.getElem?_range' hi, Nat.one_mul]
  rw [List.getElem?_map, List.getElem?_eq_getElem hi] at hget
  exact Option.some.inj hget

/-- Connections with smaller numbers were accepted before, or at the same time. -/
theorem Takes.acceptedAt_le (h : Takes c first? offers number now visits) {v w : Visit}
    (hv : v ∈ visits) (hw : w ∈ visits)
    (hle : v.number ≤ w.number) : v.acceptedAt ≤ w.acceptedAt := by
  obtain ⟨i, hi, rfl⟩ := List.mem_iff_getElem.1 hv
  obtain ⟨j, hj, rfl⟩ := List.mem_iff_getElem.1 hw
  rw [h.number_getElem, h.number_getElem, Nat.add_le_add_iff_left] at hle
  rcases Nat.eq_or_lt_of_le hle with rfl | hlt
  · exact Nat.le_refl _
  · exact List.pairwise_iff_getElem.1 h.sorted i j hi hj hlt

/-- What the loop does takes connections in their order. -/
theorem Leads.takes (h : Leads c first? offers number now slots report) :
    Takes c first? offers number now report.visits := by
  induction h with
  | stop | starve | listen =>
    exact ⟨rfl, List.nil_prefix, List.forall_mem_nil _, .nil, List.forall_mem_nil _,
      List.forall_mem_nil _⟩
  | take _ hleast _ _ ih =>
    exact { ih with now_le := fun v hv => Nat.le_trans hleast.1.1 (ih.now_le v hv) }
  | wait _ _ _ ih =>
    exact { ih with now_le := fun v hv => Nat.le_trans (Nat.le_add_right _ _) (ih.now_le v hv) }
  | fail _ _ _ ih => exact { ih with }
  | @connection rest visitor number now slots visit report hheld htold hvisit _ ih =>
    subst hvisit
    exact
      { numbers := congrArg (number :: ·) ih.numbers
        visitors := List.cons_prefix_cons.2 ⟨rfl, ih.visitors⟩
        now_le := List.forall_mem_cons.2 ⟨Nat.le_refl _, ih.now_le⟩
        sorted := .cons ih.now_le ih.sorted
        eq_ofVisitor := List.forall_mem_cons.2 ⟨rfl, ih.eq_ofVisitor⟩
        lt_told := List.forall_mem_cons.2 ⟨htold, ih.lt_told⟩ }

/-- The loop returns only if it is told to stop. -/
theorem Leads.returnedAt_eq_none (h : Leads c first? offers number now slots report)
    (hnever : ∀ number, c.told? first? number = none) : report.returnedAt = none := by
  induction h with
  | stop htold _ => cases (hnever _).symm.trans htold
  | starve | listen => rfl
  | take _ _ _ _ ih | wait _ _ _ ih | fail _ _ _ ih | connection _ _ _ _ ih => exact ih

/-- The log tells that the loop is stopped when it returns. -/
theorem Leads.mem_log_iff (h : Leads c first? offers number now slots report) {t : Nat} :
    (t, .serverStopped c.address) ∈ report.log ↔ report.returnedAt = some t := by
  induction h with
  | @stop offers number now t' slots _ _ =>
    rw [stopped, List.mem_singleton, Prod.mk.injEq, Option.some.injEq, and_iff_left rfl]
    exact eq_comm
  | starve | listen => exact ⟨nofun, nofun⟩
  | take _ _ _ _ ih | wait _ _ _ ih => exact ih
  | fail _ _ _ ih =>
    refine Iff.trans ?_ ih
    exact List.mem_cons.trans (or_iff_right nofun)
  | @connection rest visitor number now slots visit report _ _ _ _ ih =>
    have hwelcome : (t, Notice.serverStopped c.address) ∉
        (c.welcome number visitor).map (now, ·) := by
      rw [Context.welcome]
      cases visitor.noDelayFailure? <;> simp
    exact (List.mem_append.trans (or_iff_right hwelcome)).trans ih

end Service

end HttpEcho
