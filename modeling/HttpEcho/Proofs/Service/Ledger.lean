import HttpEcho.Proofs.Service.Visits

/-!
# Conservation of slots

At every instant of a service its free slots, the slot of its loop and those of the connections in
service are as many as it has (`Service.conserves_run`). What one move of the loop does to the slots
is said in `Slots.room_after`; the ledger adds up the moves (`Service.Follow.room_eq`).
-/

namespace HttpEcho

/-- Whether a visit is in service at a time. -/
def Visit.isServed (time : Nat) (v : Visit) : Bool :=
  v.acceptedAt ≤ time && !Slots.hasEnded time v.endedAt?

/-- Whether a notice is that of a failed accept. -/
def Notice.isAcceptFailed : Notice → Bool
  | .acceptFailed _ => true
  | _ => false

namespace Service

open Slots (hasEnded)

/-- The slots after some moves, if no connection had ended since. -/
def lastSlots (slots : Slots) (moves : List Entry) : Slots :=
  (moves.map Entry.slots).getLastD slots

/-- The slots of a service at a time, after some moves of its loop. -/
def slotsAt (c : Context) (moves : List Entry) (time : Nat) : Slots :=
  (lastSlots (.fresh c.settings.maxConnections) moves).release time

/-- The endings of the connections that slots were handed over to. -/
def endings (moves : List Entry) : List (Option Nat) := moves.filterMap (·.move.ending?)

variable {c : Context} {first? : Option Stop} {offers : List Offer} {number now time : Nat}
  {slots : Slots} {report : Report} {moves : List Entry} {entry : Entry}
  {move : Slots.Move}

theorem lastSlots_cons (slots : Slots) (entry : Entry) (moves : List Entry) :
    lastSlots slots (entry :: moves) = lastSlots entry.slots moves := List.getLastD_cons

theorem endings_cons (entry : Entry) (moves : List Entry) :
    endings (entry :: moves) = entry.move.ending?.toList ++ endings moves := by
  rw [endings, List.filterMap_cons]
  cases entry.move.ending? <;> rfl

/-! ### Moves of the loop -/

/-- Entries of a ledger follow each other: each move is made after those before it, is one that the
slots allow then, and leaves the slots of the next one. -/
inductive Follow : Nat → Slots → List Entry → Prop
  | nil {now : Nat} {slots : Slots} : Follow now slots []
  | cons {now : Nat} {slots : Slots} {entry : Entry} {rest : List Entry} (hnow : now ≤ entry.time)
      (hallows : (slots.release entry.time).Allows entry.move)
      (hslots : entry.slots.Same entry.time ((slots.release entry.time).after entry.move)) :
      Follow entry.time entry.slots rest → Follow now slots (entry :: rest)

theorem Follow.of_le {now' : Nat} (h : Follow now' slots moves) (hle : now ≤ now') :
    Follow now slots moves := by
  cases h with
  | nil => exact .nil
  | cons hnow hallows hslots hrest => exact .cons (Nat.le_trans hle hnow) hallows hslots hrest

theorem Follow.now_le (h : Follow now slots moves) : ∀ entry ∈ moves, now ≤ entry.time := by
  induction h with
  | nil => exact List.forall_mem_nil _
  | cons hnow _ _ _ ih =>
    exact List.forall_mem_cons.2 ⟨hnow, fun later hmem => Nat.le_trans hnow (ih later hmem)⟩

/-- The moves of the loop follow one another. -/
theorem Leads.follow (h : Leads c first? offers number now slots report) :
    Follow now slots report.ledger := by
  induction h with
  | stop | starve | listen => exact .nil
  | wait _ _ _ ih => exact ih.of_le (Nat.le_add_right _ _)
  | take hheld hleast _ _ ih => exact .cons hleast.1.1 ⟨hleast.1.2, hheld⟩ rfl ih
  | @fail rest kind number now slots report hheld _ _ ih =>
    have hsame : slots.Same now (slots.release now) := (Slots.same_release now slots).symm
    have hallows : (slots.release now).Allows .giveBack := hheld
    exact .cons (Nat.le_refl _) hallows hsame.giveBack ih
  | @connection rest visitor number now slots visit report hheld _ _ _ ih =>
    have hsame : slots.Same now (slots.release now) := (Slots.same_release now slots).symm
    have hallows : (slots.release now).Allows (.handOver visit.endedAt?) := hheld
    exact .cons (Nat.le_refl _) hallows (hsame.handOver _) ih

/-- Slots are conserved along the moves. -/
theorem Follow.room_eq {ledger : List Entry} (h : Follow now slots ledger) (moves : List Entry)
    (hmoves : moves <+: ledger) (hnow : now ≤ time) (htime : ∀ entry ∈ moves, entry.time ≤ time) :
    (lastSlots slots moves).room time + (endings moves).countP (!hasEnded time ·) =
      slots.room time := by
  induction h generalizing moves with
  | nil =>
    obtain rfl := List.prefix_nil.1 hmoves
    rfl
  | @cons now slots entry rest hentry hallows hslots _ ih =>
    obtain rfl | ⟨moves', rfl, hmoves'⟩ := List.prefix_cons_iff.1 hmoves
    · rfl
    obtain ⟨hle, htime'⟩ := List.forall_mem_cons.1 htime
    have hroom := ih moves' hmoves' hle htime'
    have hmove := Slots.room_after hallows time
    rw [hslots.room_eq hle] at hroom
    rw [Slots.room_release hle] at hmove
    rw [lastSlots_cons, endings_cons, List.countP_append, ← hmove, ← hroom]
    omega

theorem Follow.held_le {ledger : List Entry} (h : Follow now slots ledger) (hheld : slots.held ≤ 1)
    (moves : List Entry) (hmoves : moves <+: ledger) : (lastSlots slots moves).held ≤ 1 := by
  induction h generalizing moves with
  | nil =>
    obtain rfl := List.prefix_nil.1 hmoves
    exact hheld
  | @cons now slots entry rest _ hallows hslots _ ih =>
    obtain rfl | ⟨moves', rfl, hmoves'⟩ := List.prefix_cons_iff.1 hmoves
    · exact hheld
    · rw [lastSlots_cons]
      exact ih (hslots.held_eq ▸ Slots.held_after_le hallows) moves' hmoves'

/-- Slots are handed over to the connections that are accepted. -/
theorem Leads.endings_ledger (h : Leads c first? offers number now slots report) :
    endings report.ledger = report.visits.map Visit.endedAt? := by
  induction h with
  | stop | starve | listen => rfl
  | wait _ _ _ ih => exact ih
  | take _ _ _ _ ih | fail _ _ _ ih => exact ih
  | connection _ _ _ _ ih => exact congrArg (_ :: ·) ih

theorem Leads.endings_eq (h : Leads c first? offers number now slots report)
    (hmoves : moves <+: report.ledger) :
    endings moves = (report.visits.take (endings moves).length).map Visit.endedAt? := by
  have hprefix : endings moves <+: endings report.ledger := hmoves.filterMap _
  rw [h.endings_ledger] at hprefix
  rw [List.map_take]
  exact List.prefix_iff_eq_take.1 hprefix

/-- Slots are given back by the accepts that fail. -/
theorem Leads.failures (h : Leads c first? offers number now slots report) :
    (report.ledger.filter (·.move = .giveBack)).map Entry.time =
      (report.log.filter (·.2.isAcceptFailed)).map Prod.fst := by
  induction h with
  | stop | starve | listen => rfl
  | wait _ _ _ ih => exact ih
  | take _ _ _ _ ih => exact ih
  | fail _ _ _ ih => exact congrArg (_ :: ·) ih
  | @connection rest visitor number now slots visit report _ _ _ _ ih =>
    have hwelcome : ((c.welcome number visitor).map (now, ·)).filter (·.2.isAcceptFailed) = [] := by
      rw [Context.welcome]
      cases visitor.noDelayFailure? <;> rfl
    have hlog : ((report.afterVisit visit).afterLog now (c.welcome number visitor)).log.filter
        (·.2.isAcceptFailed) = report.log.filter (·.2.isAcceptFailed) := by
      rw [Report.afterLog, List.filter_append, hwelcome, List.nil_append]
      rfl
    exact ih.trans (congrArg (List.map Prod.fst) hlog).symm

/-- The loop serves no more connections than it has slots for. -/
theorem Leads.served_le (h : Leads c first? offers number now slots report) (hnow : now ≤ time) :
    report.visits.countP (Visit.isServed time) ≤ slots.room time := by
  -- what is accepted later is not served yet
  have hlater : ∀ {now : Nat} {slots : Slots} {report : Report}, time < now →
      (∀ v ∈ report.visits, now ≤ v.acceptedAt) →
        report.visits.countP (Visit.isServed time) ≤ slots.room time := by
    intro now slots report hlt haccepted
    have hzero : report.visits.countP (Visit.isServed time) = 0 :=
      List.countP_eq_zero.2 fun v hv hserved => by
        rw [Visit.isServed, Bool.and_eq_true, decide_eq_true_eq] at hserved
        exact absurd (Nat.lt_of_lt_of_le hlt (haccepted v hv)) (Nat.not_lt.2 hserved.1)
    exact hzero ▸ Nat.zero_le _
  induction h with
  | stop | starve | listen => exact Nat.zero_le _
  | @take offers number now now' slots report hheld hleast _ hleads ih =>
    have hallows : (slots.release now').Allows .take := ⟨hleast.1.2, hheld⟩
    rcases Nat.lt_or_ge time now' with hlt | hge
    · exact hlater hlt hleads.takes.now_le
    · rw [← Slots.room_release hge slots, ← Slots.room_take hallows time]
      exact ih hge
  | @wait rest ms number now slots report _ _ hleads ih =>
    rcases Nat.lt_or_ge time (now + ms) with hlt | hge
    · exact hlater hlt hleads.takes.now_le
    · exact ih hge
  | @fail rest kind number now slots report hheld _ _ ih =>
    have hallows : slots.Allows .giveBack := hheld
    rw [← Slots.room_giveBack hallows time]
    exact ih hnow
  | @connection rest visitor number now slots visit report hheld _ hvisit _ ih =>
    have hallows : slots.Allows (.handOver visit.endedAt?) := hheld
    have hone : [visit].countP (Visit.isServed time) ≤
        ([visit].map Visit.endedAt?).countP (!hasEnded time ·) := by
      rw [List.countP_map]
      exact List.countP_mono_left fun v _ hserved => (Bool.and_eq_true_iff.1 hserved).2
    calc ([visit] ++ report.visits).countP (Visit.isServed time)
        = report.visits.countP (Visit.isServed time) + [visit].countP (Visit.isServed time) := by
          rw [List.countP_append, Nat.add_comm]
      _ ≤ (slots.after (.handOver visit.endedAt?)).room time +
            [visit.endedAt?].countP (!hasEnded time ·) := Nat.add_le_add (ih hnow) hone
      _ = slots.room time := Slots.room_handOver hallows time

/-- Slots are handed over when connections are accepted. -/
theorem Leads.accepts (h : Leads c first? offers number now slots report) :
    (report.ledger.filter (·.move.ending?.isSome)).map Entry.time =
      report.visits.map Visit.acceptedAt := by
  induction h with
  | stop | starve | listen => rfl
  | wait _ _ _ ih => exact ih
  | take _ _ _ _ ih | fail _ _ _ ih => exact ih
  | connection _ _ hvisit _ ih =>
    subst hvisit
    exact congrArg (_ :: ·) ih

/-- Each move of a ledger is allowed where it is made, and leaves the slots that it says. -/
theorem Follow.of_append {before after : List Entry}
    (h : Follow now slots (before ++ entry :: after)) :
    ((lastSlots slots before).release entry.time).Allows entry.move ∧
      entry.slots.Same entry.time
        (((lastSlots slots before).release entry.time).after entry.move) := by
  induction before generalizing now slots with
  | nil =>
    cases h with
    | cons _ hallows hslots _ => exact ⟨hallows, hslots⟩
  | cons earlier before ih =>
    cases h with
    | cons _ _ _ hrest =>
      rw [lastSlots_cons]
      exact ih hrest

/-- The moves of a ledger are in the order of their times. -/
theorem Follow.sorted (h : Follow now slots moves) : moves.Pairwise (·.time ≤ ·.time) := by
  induction h with
  | nil => exact .nil
  | cons _ _ _ hrest ih => exact .cons hrest.now_le ih

/-! ### Slots of a service -/

/-- How many connections slots were handed over to. -/
def handOvers (moves : List Entry) : Nat := (endings moves).length

/-- How a service keeps its slots. -/
structure Conserves (c : Context) (offers : List Offer) (r : Report) : Prop where
  /-- The moves of the loop come one after the other; each is one that the slots allow. -/
  sorted : r.ledger.Pairwise (·.time ≤ ·.time)
  moves : ∀ before entry after, r.ledger = before ++ entry :: after →
    (slotsAt c before entry.time).Allows entry.move ∧
      slotsAt c (before ++ [entry]) entry.time =
        ((slotsAt c before entry.time).after entry.move).release entry.time
  /-- A slot is handed over for each connection that is accepted. -/
  accepts : (r.ledger.filter (·.move.ending?.isSome)).map Entry.time = r.visits.map Visit.acceptedAt
  /-- **At every instant** the free slots, that of the loop and those of the connections in service
  are all slots. -/
  conserved : ∀ moves, moves <+: r.ledger → ∀ time, (∀ entry ∈ moves, entry.time ≤ time) →
    (∀ stop, r.returnedAt = some stop → time < stop) →
      (slotsAt c moves time).held ≤ 1 ∧
        (slotsAt c moves time).free + (slotsAt c moves time).held +
            (r.visits.take (handOvers moves)).countP (fun v => !hasEnded time v.endedAt?) =
          c.settings.maxConnections
  /-- There are never more connections in service. -/
  served_le : ∀ time, r.visits.countP (Visit.isServed time) ≤ c.settings.maxConnections
  /-- Each failed accept gives back one slot. -/
  failures : (r.ledger.filter (·.move = .giveBack)).map Entry.time =
    (r.log.filter (·.2.isAcceptFailed)).map Prod.fst
  givesBack : ∀ before entry after, r.ledger = before ++ entry :: after → entry.move = .giveBack →
    (slotsAt c before entry.time).held = 1 ∧
      (slotsAt c (before ++ [entry]) entry.time).held = 0 ∧
        (slotsAt c (before ++ [entry]) entry.time).free = (slotsAt c before entry.time).free + 1
  /-- Each connection that ends gives back one slot. -/
  ends : ∀ moves, moves <+: r.ledger → ∀ time time', (∀ entry ∈ moves, entry.time ≤ time) →
    time ≤ time' → (∀ stop, r.returnedAt = some stop → time' < stop) →
      (slotsAt c moves time').free = (slotsAt c moves time).free +
        (r.visits.take (handOvers moves)).countP fun v =>
          !hasEnded time v.endedAt? && hasEnded time' v.endedAt?
  /-- After any failures and endings, as many connections are accepted as there are slots then. -/
  admits : ∀ k gap (visitors : List Visitor) rest time, k ≤ r.visits.length →
    Offer.afterConnections k offers = gap ++ (visitors.map .connection ++ rest) →
      (∀ offer ∈ gap, offer.visitor? = none) → (∀ v ∈ r.visits.take k, v.acceptedAt ≤ time) →
        visitors.length + (r.visits.take k).countP (fun v => !hasEnded time v.endedAt?) ≤
            c.settings.maxConnections →
          (∀ stop, r.returnedAt = some stop → time + Offer.waits gap < stop) →
            k + visitors.length ≤ r.visits.length ∧
              ∀ v ∈ r.visits.take (k + visitors.length), v.acceptedAt ≤ time + Offer.waits gap

/-- The moves of the loop of a service follow each other. -/
theorem follow_run (c : Context) (offers : List Offer) :
    Follow 0 (.fresh c.settings.maxConnections) (run c offers).ledger :=
  (leads_loop c (firstStop? c offers) offers).follow

theorem lastSlots_concat (slots : Slots) (moves : List Entry) (entry : Entry) :
    lastSlots slots (moves ++ [entry]) = entry.slots := by
  rw [lastSlots, List.map_append, List.map_singleton, List.getLastD_concat]

/-- Each move in the ledger of a run is allowed where it is made. -/
theorem moves_run {before after : List Entry}
    (h : (run c offers).ledger = before ++ entry :: after) :
    (slotsAt c before entry.time).Allows entry.move ∧
      slotsAt c (before ++ [entry]) entry.time =
        ((slotsAt c before entry.time).after entry.move).release entry.time := by
  obtain ⟨hallows, hslots⟩ := (h ▸ follow_run c offers).of_append
  refine ⟨hallows, ?_⟩
  rw [slotsAt, lastSlots_concat]
  exact hslots

/-- At every time the slots that are held, free or serving are those that there are. -/
theorem conserved_run (hmoves : moves <+: (run c offers).ledger)
    (htime : ∀ entry ∈ moves, entry.time ≤ time)
    (hstop : ∀ stop, (run c offers).returnedAt = some stop → time < stop) :
    (slotsAt c moves time).held ≤ 1 ∧
      (slotsAt c moves time).free + (slotsAt c moves time).held +
          ((run c offers).visits.take (handOvers moves)).countP
            (fun v => !hasEnded time v.endedAt?) = c.settings.maxConnections := by
  refine ⟨(follow_run c offers).held_le (Nat.zero_le _) moves hmoves, ?_⟩
  have hroom := (follow_run c offers).room_eq moves hmoves (Nat.zero_le _) htime
  have hendings := (leads_loop c (firstStop? c offers) offers).endings_eq hmoves
  have hcount : (endings moves).countP (!hasEnded time ·) =
      ((run c offers).visits.take (handOvers moves)).countP (fun v =>
        !hasEnded time v.endedAt?) := by
    rw [countP_visits_run offers _ hstop, hendings, List.countP_map]
    rfl
  rw [hcount, Slots.room_fresh, Slots.room, Nat.add_comm (lastSlots _ moves).held] at hroom
  exact hroom

/-- No more connections are served at a time than there are slots. -/
theorem served_le_run (time : Nat) :
    (run c offers).visits.countP (Visit.isServed time) ≤ c.settings.maxConnections := by
  have hloop : ∀ first?, (loop c first? offers).visits.countP (Visit.isServed time) ≤
      c.settings.maxConnections := fun first? => by
    have hserved := (leads_loop c first? offers).served_le (Nat.zero_le time)
    rwa [Slots.room_fresh] at hserved
  obtain ⟨-, hvisits⟩ | ⟨first, hear, -, hfits, hvisits⟩ := visits_run_cases c offers
  · rw [hvisits]
    exact hloop none
  · rw [hvisits, hearingAll, List.countP_map]
    refine Nat.le_trans (List.countP_mono_left fun v hv hserved => ?_) (hloop (some first))
    obtain ⟨haccepted, hends⟩ := Bool.and_eq_true_iff.1 hserved
    refine Bool.and_eq_true_iff.2 ⟨haccepted, ?_⟩
    rw [Bool.not_eq_true'] at hends ⊢
    refine eq_false_of_ne_true fun hended => ?_
    have hended' :=
      (undisturbed_loop c (some first) offers).hasEnded_of_hearing hfits hv hended
    exact absurd (hends.symm.trans hended') Bool.false_ne_true

theorem countP_hasEnded_of_le {time' : Nat} (hle : time ≤ time') (visits : List Visit) :
    visits.countP (fun v => !hasEnded time v.endedAt?) =
      visits.countP (fun v => !hasEnded time' v.endedAt?) +
        visits.countP (fun v => !hasEnded time v.endedAt? && hasEnded time' v.endedAt?) := by
  induction visits with
  | nil => rfl
  | cons v visits ih =>
    have hmono : hasEnded time v.endedAt? = true → hasEnded time' v.endedAt? = true :=
      Slots.hasEnded_mono hle
    have hone : (if (!hasEnded time v.endedAt?) = true then 1 else 0) =
        (if (!hasEnded time' v.endedAt?) = true then 1 else 0) +
          if (!hasEnded time v.endedAt? && hasEnded time' v.endedAt?) = true then 1 else 0 := by
      revert hmono
      cases hasEnded time v.endedAt? <;> cases hasEnded time' v.endedAt? <;> decide
    rw [List.countP_cons, List.countP_cons, List.countP_cons, ih, hone]
    omega

/-- **Slots are conserved.** -/
theorem conserves_run (c : Context) (offers : List Offer) : Conserves c offers (run c offers) where
  sorted := (follow_run c offers).sorted
  moves _ _ _ := moves_run
  accepts := by
    rw [map_visits_run fun _ _ => rfl]
    exact (leads_loop c (firstStop? c offers) offers).accepts
  conserved _ hmoves _ htime hstop := conserved_run hmoves htime hstop
  served_le := served_le_run
  failures := (leads_loop c (firstStop? c offers) offers).failures
  givesBack before entry after hledger hmove := by
    obtain ⟨hallows, hslots⟩ := moves_run hledger
    rw [hmove] at hallows hslots
    have hheld : (slotsAt c before entry.time).held = 1 := hallows
    refine ⟨hheld, ?_, ?_⟩
    · rw [hslots, Slots.held_release, Slots.after, hheld]
    · rw [hslots, slotsAt, Slots.free_giveBack_release]
  ends moves hmoves time time' htime hle hstop := by
    have hconserved := (conserved_run hmoves htime fun stop h =>
      Nat.lt_of_le_of_lt hle (hstop stop h)).2
    have hconserved' := (conserved_run hmoves
      (fun entry hentry => Nat.le_trans (htime entry hentry) hle) hstop).2
    have hheld : (slotsAt c moves time').held = (slotsAt c moves time).held := rfl
    have hcount := countP_hasEnded_of_le hle ((run c offers).visits.take (handOvers moves))
    omega
  admits _ _ _ _ _ hk hoffers hgap haccepted hroom hstop :=
    run_admits hk hoffers hgap haccepted hroom hstop

end Service

end HttpEcho
