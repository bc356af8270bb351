import HttpEcho.Proofs.Service.Admission
import HttpEcho.Proofs.Service.Failures
import HttpEcho.Proofs.Service.Hearing

/-!
# Connections of a service

A service takes the connections that are offered to it in their order, until it is told to stop, and
each of them goes on as it does alone (`Service.serves_run`).
-/

namespace HttpEcho

namespace Service

open Slots (hasEnded)

variable {c : Context} {first : Stop} {offers : List Offer} {visits : List Visit}
  {hear : Nat → Option Nat} {time : Nat}

/-! ### The first stop -/

/-- The first stop of a service. -/
def firstStop? (c : Context) (offers : List Offer) : Option Stop :=
  Stop.first? (c.stops (loop c none offers).visits)

/-- Without a first stop there is none from outside. -/
theorem stop?_eq_none_of_firstStop? (h : firstStop? c offers = none) : c.stop? = none := by
  have hstops := Stop.first?_eq_none_iff.1 h
  refine Option.eq_none_iff_forall_ne_some.2 fun t ht => ?_
  have hmem : ⟨t, none⟩ ∈ c.stops (loop c none offers).visits := mem_stops.2 (.inl ⟨rfl, ht⟩)
  exact absurd (hstops ▸ hmem) List.not_mem_nil

/-- The visits of a loop hear of stops from elsewhere only. -/
theorem undisturbed_loop (c : Context) (first? : Option Stop) (offers : List Offer) :
    Undisturbed c (loop c first? offers).visits :=
  (leads_loop c first? offers).takes.eq_ofVisitor

/-- The loop that knows of the first stop accepts the connection whose peer tells it. -/
theorem first?_loop (h : firstStop? c offers = some first) :
    Stop.first? (c.stops (loop c (some first) offers).visits) = some first := by
  obtain ⟨hvisits, -, hafter⟩ := endsAt_loop h
  obtain ⟨hmem, hleast⟩ := Stop.first?_spec h
  have htakes := (leads_loop c none offers).takes
  refine Stop.first?_eq_some_iff.2 ⟨?_, fun stop hstop => hleast stop ?_⟩
  · refine mem_stops.2 ((mem_stops.1 hmem).imp_right fun ⟨v, hv, hstop⟩ => ⟨v, ?_, hstop⟩)
    obtain ⟨i, hi, rfl⟩ := List.mem_iff_getElem.1 hv
    have hlt : i < (loop c (some first) offers).visits.length := by
      rw [Stop.after, (Visit.mem_stops.1 hstop).1, htakes.number_getElem] at hafter
      exact Nat.lt_of_succ_le (by simpa using hafter)
    rw [← hvisits.getElem hlt]
    exact List.getElem_mem hlt
  · refine mem_stops.2 ((mem_stops.1 hstop).imp_right ?_)
    rintro ⟨v, hv, hstop⟩
    exact ⟨v, hvisits.subset hv, hstop⟩

/-- The loop that knows of the first stop accepts nothing after it. -/
theorem acceptedAt_le_of_mem_loop (h : firstStop? c offers = some first) :
    ∀ v ∈ (loop c (some first) offers).visits, v.acceptedAt ≤ first.time ∧
      (first.after ≤ v.number → v.acceptedAt < first.time) := by
  intro v hv
  have htakes := (leads_loop c (some first) offers).takes
  have hlt : first.after ≤ v.number → v.acceptedAt < first.time := fun hle =>
    htakes.lt_told v hv first.time (told?_of_le hle)
  refine ⟨?_, hlt⟩
  by_cases hle : first.after ≤ v.number
  · exact Nat.le_of_lt (hlt hle)
  · obtain ⟨hteller, -⟩ | ⟨w, hw, hstop⟩ := mem_stops.1 (Stop.first?_spec (first?_loop h)).1
    · rw [Stop.after, hteller] at hle
      exact absurd (Nat.zero_le _) hle
    · rw [Stop.after, (Visit.mem_stops.1 hstop).1, Option.elim_some] at hle
      exact Nat.le_trans (htakes.acceptedAt_le hv hw (Nat.le_of_lt_succ (Nat.lt_of_not_le hle)))
        (Visit.le_of_mem_stops hstop)

/-! ### Runs -/

theorem visits_run_of_none (h : firstStop? c offers = none) :
    (run c offers).visits = (loop c none offers).visits := by
  have h' : Stop.first? (c.stops (loop c none offers).visits) = none := h
  simp only [run, h', Report.afterLog]

theorem visits_run_of_some (h : firstStop? c offers = some first) :
    (run c offers).visits = spread c first (loop c (some first) offers).visits := by
  have h' : Stop.first? (c.stops (loop c none offers).visits) = some first := h
  simp only [run, h', Report.afterLog]

/-- A service returns when it is first told to stop, and only then. -/
theorem returnedAt_run (c : Context) (offers : List Offer) :
    (run c offers).returnedAt = (firstStop? c offers).map Stop.time := by
  have hrun : (run c offers).returnedAt = (loop c (firstStop? c offers) offers).returnedAt := rfl
  rw [hrun]
  cases h : firstStop? c offers with
  | none =>
    exact (leads_loop c none offers).returnedAt_eq_none fun _ => stop?_eq_none_of_firstStop? h
  | some first => exact (endsAt_loop h).returnedAt_eq

/-- The connections of a service are those of the loop, and what they hear fits the first stop. -/
theorem visits_run_cases (c : Context) (offers : List Offer) :
    firstStop? c offers = none ∧ (run c offers).visits = (loop c none offers).visits ∨
      ∃ first hear, firstStop? c offers = some first ∧ Fits c first hear ∧
        (run c offers).visits = hearingAll c hear (loop c (some first) offers).visits := by
  cases h : firstStop? c offers with
  | none => exact .inl ⟨rfl, visits_run_of_none h⟩
  | some first =>
    have hundisturbed := undisturbed_loop c (some first) offers
    have hfits := fits_hearsFirst (first?_loop h)
    refine .inr ⟨first, _, rfl, fits_heard? (hundisturbed.first?_stops hfits (first?_loop h)), ?_⟩
    rw [visits_run_of_some h, hundisturbed.spread_eq first]

/-- **The first stop of a service** is the first one that its connections and others tell it. -/
theorem first?_run (c : Context) (offers : List Offer) :
    Stop.first? (c.stops (run c offers).visits) = firstStop? c offers := by
  cases h : firstStop? c offers with
  | none =>
    rw [visits_run_of_none h]
    exact h
  | some first =>
    rw [visits_run_of_some h]
    exact (undisturbed_loop c (some first) offers).first?_spread (first?_loop h)

/-- **Each connection hears of the stop that it should hear of.** -/
theorem hears_run (c : Context) (offers : List Offer) : ∀ v ∈ (run c offers).visits,
    v.hearing c.settings (Stop.heard? (c.stops (run c offers).visits) v.number) = v := by
  cases h : firstStop? c offers with
  | none =>
    intro v hv
    have hheard : Stop.heard? (c.stops (run c offers).visits) v.number = c.stop? := by
      rw [Stop.heard?, first?_run, h, stop?_eq_none_of_firstStop? h, Option.bind_none]
    rw [hheard]
    exact undisturbed_loop c none offers v (visits_run_of_none h ▸ hv)
  | some first =>
    rw [visits_run_of_some h]
    exact (undisturbed_loop c (some first) offers).hears_spread (first?_loop h)

/-! ### Accepts -/

/-- The loop is not told of a stop before the first one. -/
theorem le_of_told? {number t : Nat} (h : c.told? (firstStop? c offers) number = some t) :
    ∃ stop, (run c offers).returnedAt = some stop ∧ stop ≤ t := by
  rw [returnedAt_run]
  cases hfirst : firstStop? c offers with
  | none =>
    rw [hfirst, told?_none, stop?_eq_none_of_firstStop? hfirst] at h
    cases h
  | some first =>
    refine ⟨first.time, rfl, ?_⟩
    rw [hfirst] at h
    by_cases hafter : first.after ≤ number
    · rw [told?_of_le hafter] at h
      exact Nat.le_of_eq (Option.some.inj h)
    · rw [told?_of_lt (Nat.lt_of_not_le hafter)] at h
      exact le_stop_of_first? hfirst t h

/-- Whom a service accepts, and when, is known from its loop. -/
theorem map_visits_run {α : Type} {f : Visit → α}
    (hf : ∀ v heard?, f (Visit.hearing c.settings heard? v) = f v) (offers : List Offer) :
    (run c offers).visits.map f = (loop c (firstStop? c offers) offers).visits.map f := by
  obtain ⟨hfirst, hvisits⟩ | ⟨first, hear, hfirst, -, hvisits⟩ := visits_run_cases c offers
  · rw [hvisits, hfirst]
  · rw [hvisits, hfirst]
    exact map_hearingAll hf _ _

/-- Of the connections of a service, the same have ended before the stop as of those of its loop. -/
theorem countP_visits_run (offers : List Offer) (k : Nat)
    (htime : ∀ stop, (run c offers).returnedAt = some stop → time < stop) :
    ((run c offers).visits.take k).countP (fun v => !hasEnded time v.endedAt?) =
      ((loop c (firstStop? c offers) offers).visits.take k).countP
        (fun v => !hasEnded time v.endedAt?) := by
  obtain ⟨hfirst, hvisits⟩ | ⟨first, hear, hfirst, hfits, hvisits⟩ := visits_run_cases c offers
  · rw [hvisits, hfirst]
  · rw [returnedAt_run, hfirst] at htime
    rw [hvisits, hfirst, hearingAll, ← List.map_take, List.countP_map]
    refine List.countP_congr fun v hv => ?_
    have hended := (undisturbed_loop c (some first) offers).hasEnded_hearing hfits
      (List.mem_of_mem_take hv) (htime first.time rfl)
    rw [Function.comp_apply, hended]

/-- **A service accepts connections as soon as it has slots for them.** -/
theorem run_admits {gap rest : List Offer} {visitors : List Visitor} {k : Nat}
    (hk : k ≤ (run c offers).visits.length)
    (hoffers : Offer.afterConnections k offers = gap ++ (visitors.map .connection ++ rest))
    (hgap : ∀ offer ∈ gap, offer.visitor? = none)
    (haccepted : ∀ v ∈ (run c offers).visits.take k, v.acceptedAt ≤ time)
    (hroom : visitors.length +
      ((run c offers).visits.take k).countP (fun v => !hasEnded time v.endedAt?) ≤
        c.settings.maxConnections)
    (hstop : ∀ stop, (run c offers).returnedAt = some stop → time + Offer.waits gap < stop) :
    k + visitors.length ≤ (run c offers).visits.length ∧
      ∀ v ∈ (run c offers).visits.take (k + visitors.length),
        v.acceptedAt ≤ time + Offer.waits gap := by
  have hmap := map_visits_run (f := Visit.acceptedAt) (c := c) (fun _ _ => rfl) offers
  have hlength : (run c offers).visits.length =
      (loop c (firstStop? c offers) offers).visits.length := by
    simpa using congrArg List.length hmap
  have htake : ∀ n bound, (∀ v ∈ (run c offers).visits.take n, v.acceptedAt ≤ bound) ↔
      ∀ v ∈ (loop c (firstStop? c offers) offers).visits.take n, v.acceptedAt ≤ bound := by
    intro n bound
    rw [← List.forall_mem_map (f := Visit.acceptedAt) (P := (· ≤ bound)), List.map_take, hmap,
      ← List.map_take, List.forall_mem_map]
  have hlt : ∀ stop, (run c offers).returnedAt = some stop → time < stop := fun stop h =>
    Nat.lt_of_le_of_lt (Nat.le_add_right _ _) (hstop stop h)
  have htold : ∀ number t, c.told? (firstStop? c offers) number = some t →
      time + Offer.waits gap < t := fun number t ht => by
    obtain ⟨stop, hreturned, hle⟩ := le_of_told? ht
    exact Nat.lt_of_lt_of_le (hstop stop hreturned) hle
  rw [countP_visits_run offers k hlt] at hroom
  rw [hlength] at hk ⊢
  rw [htake] at haccepted ⊢
  exact loop_admits hk hoffers hgap haccepted hroom htold

/-- A service accepts nothing after its first stop. -/
theorem acceptedAt_le_of_mem_run (h : firstStop? c offers = some first) :
    ∀ v ∈ (run c offers).visits, v.acceptedAt ≤ first.time ∧
      (first.after ≤ v.number → v.acceptedAt < first.time) := by
  intro v' hv'
  rw [visits_run_of_some h, (undisturbed_loop c (some first) offers).spread_eq first] at hv'
  obtain ⟨v, hv, rfl⟩ := List.mem_map.1 hv'
  exact acceptedAt_le_of_mem_loop h v hv

/-- Failed accepts make no difference to the visits of a service and to its end. -/
theorem sameVisits_run (c : Context) (offers : List Offer) :
    SameVisits (run c offers) (run c (Offer.withoutFails offers)) := by
  have hfirst : firstStop? c (Offer.withoutFails offers) = firstStop? c offers := by
    rw [firstStop?, firstStop?, (sameVisits_loop c none offers).1]
  refine ⟨?_, by rw [returnedAt_run, returnedAt_run, hfirst]⟩
  cases h : firstStop? c offers with
  | none =>
    rw [visits_run_of_none h, visits_run_of_none (hfirst.trans h),
      (sameVisits_loop c none offers).1]
  | some first =>
    rw [visits_run_of_some h, visits_run_of_some (hfirst.trans h),
      (sameVisits_loop c (some first) offers).1]

/-- The log of a service ends when it is stopped. -/
theorem mem_log_run {t : Nat} :
    (t, .serverStopped c.address) ∈ (run c offers).log ↔ (run c offers).returnedAt = some t := by
  have hlog : (run c offers).log =
      (0, .listening c.address) :: (loop c (firstStop? c offers) offers).log := rfl
  have hne : (t, Notice.serverStopped c.address) ≠ (0, .listening c.address) := nofun
  rw [hlog, List.mem_cons, or_iff_right hne]
  exact (leads_loop c (firstStop? c offers) offers).mem_log_iff

/-! ### What a service does with the connections that are offered -/

/-- How a service serves the connections that are offered to it. -/
structure Serves (c : Context) (offers : List Offer) (r : Report) : Prop where
  /-- The connections that it accepts are those offered first, each once and in their order. -/
  visitors : r.visits.map Visit.visitor <+: offers.filterMap Offer.visitor?
  numbers : r.visits.map Visit.number = List.range r.visits.length
  sorted : r.visits.Pairwise (·.acceptedAt ≤ ·.acceptedAt)
  /-- If it does not accept the next one, the stop comes before that one is offered and there is a
  slot. -/
  complete : ∀ gap visitor rest time,
    Offer.afterConnections r.visits.length offers = gap ++ .connection visitor :: rest →
      (∀ offer ∈ gap, offer.visitor? = none) → (∀ v ∈ r.visits, v.acceptedAt ≤ time) →
        r.visits.countP (fun v => !hasEnded time v.endedAt?) < c.settings.maxConnections →
          ∃ stop, r.returnedAt = some stop ∧ stop ≤ time + Offer.waits gap
  /-- Failed accepts make no difference. -/
  skips : SameVisits r (run c (Offer.withoutFails offers))
  /-- It accepts nothing after it is told to stop. A peer that tells it has been accepted by
  then. -/
  stops : ∀ stop, Stop.first? (c.stops r.visits) = some stop → ∀ v ∈ r.visits,
    v.acceptedAt ≤ stop.time ∧ (stop.after ≤ v.number → v.acceptedAt < stop.time)
  /-- It accepts nothing at all if it is stopped before. -/
  nothing : c.stop? = some 0 → r.visits = []
  /-- It returns if and when it is told to stop. -/
  returnedAt : r.returnedAt = (Stop.first? (c.stops r.visits)).map Stop.time
  log : ∀ t, (t, .serverStopped c.address) ∈ r.log ↔ r.returnedAt = some t
  /-- Each connection goes on as it does alone, with a clock that begins when it is accepted. -/
  alone : ∀ v ∈ r.visits, v.run = Session.run c.settings v.visitor.sendFailure?
    (v.visitor.peer (Stop.heard? (c.stops r.visits) v.number) v.acceptedAt)

/-- **A service serves connections in their order and in isolation.** -/
theorem serves_run (c : Context) (offers : List Offer) : Serves c offers (run c offers) where
  visitors := by
    rw [map_visits_run fun _ _ => rfl]
    exact (leads_loop c _ offers).takes.visitors
  numbers := by
    have hnumbers := (leads_loop c (firstStop? c offers) offers).takes.numbers
    rw [← map_visits_run fun _ _ => rfl, ← List.length_map (f := Visit.number),
      ← map_visits_run fun _ _ => rfl, List.length_map] at hnumbers
    rw [hnumbers, List.range_eq_range']
  sorted := by
    have hsorted := (leads_loop c (firstStop? c offers) offers).takes.sorted
    rw [← List.pairwise_map (f := Visit.acceptedAt) (R := (· ≤ ·)),
      ← map_visits_run fun _ _ => rfl] at hsorted
    exact List.pairwise_map.1 hsorted
  complete gap visitor rest time hoffers hgap haccepted hroom := by
    by_contra hnot
    have hstop : ∀ stop, (run c offers).returnedAt = some stop → time + Offer.waits gap < stop :=
      fun stop hreturned => Nat.lt_of_not_le fun hle => hnot ⟨stop, hreturned, hle⟩
    have hoffers' : Offer.afterConnections (run c offers).visits.length offers =
        gap ++ ([visitor].map .connection ++ rest) := hoffers
    have hlength := (run_admits (Nat.le_refl _) hoffers' hgap (by rwa [List.take_length])
      (by rwa [List.take_length, Nat.add_comm]) hstop).1
    exact absurd hlength (Nat.not_succ_le_self _)
  skips := sameVisits_run c offers
  stops stop hstop v hv := acceptedAt_le_of_mem_run (first?_run c offers ▸ hstop) v hv
  nothing hstop := by
    refine List.eq_nil_iff_forall_not_mem.2 fun v hv => ?_
    have hmem : ⟨0, none⟩ ∈ c.stops (run c offers).visits := mem_stops.2 (.inl ⟨rfl, hstop⟩)
    cases hfirst : firstStop? c offers with
    | none =>
      rw [← first?_run, Stop.first?_eq_none_iff] at hfirst
      exact absurd (hfirst ▸ hmem) List.not_mem_nil
    | some first =>
      have hnot := (Stop.first?_spec ((first?_run c offers).trans hfirst)).2 _ hmem
      have hlater := (acceptedAt_le_of_mem_run hfirst v hv).2
      rw [Stop.isBefore_iff, Stop.after] at hnot
      simp only [Option.elim_none] at hnot
      omega
  returnedAt := by rw [first?_run, returnedAt_run]
  log _ := mem_log_run
  alone v hv := (congrArg Visit.run (hears_run c offers v hv)).symm

end Service

end HttpEcho
