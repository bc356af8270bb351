import HttpEcho.Proofs.Service.Loop
import HttpEcho.Proofs.Session.Hearing
import Mathlib.Order.Bounds.Basic

/-!
# The first stop

Among stops there is one that comes first (`Stop.first?_eq_some_iff`). Until the first stop of a
service the loop goes as it does without the stops by peers, and there it ends
(`Service.endsAt_loop`).
-/

namespace HttpEcho

namespace Stop

variable {a b : Stop} {stops : List Stop}

theorem isBefore_iff :
    a.isBefore b ↔ a.time < b.time ∨ a.time = b.time ∧ a.after < b.after := by
  rw [isBefore, Bool.or_eq_true, Bool.and_eq_true, decide_eq_true_eq, decide_eq_true_eq,
    decide_eq_true_eq]

theorem time_le_of_not_isBefore (h : ¬ b.isBefore a) : a.time ≤ b.time := by
  rw [isBefore_iff] at h
  omega

theorem not_isBefore_trans {c : Stop} (h : ¬ b.isBefore a) (h' : ¬ c.isBefore b) :
    ¬ c.isBefore a := by
  rw [isBefore_iff] at h h' ⊢
  omega

theorem not_isBefore_self (a : Stop) : ¬ a.isBefore a := by
  rw [isBefore_iff]
  omega

theorem after_inj (h : a.after = b.after) : a.teller? = b.teller? := by
  unfold after at h
  cases ha : a.teller? <;> cases hb : b.teller? <;> simp_all

/-- Stops neither of which comes before the other one are the same. -/
theorem eq_of_not_isBefore (h : ¬ a.isBefore b) (h' : ¬ b.isBefore a) : a = b := by
  rw [isBefore_iff] at h h'
  have htime : a.time = b.time := by omega
  have hteller : a.teller? = b.teller? := after_inj (by omega)
  cases a
  cases b
  exact (Stop.mk.injEq ..).mpr ⟨htime, hteller⟩

/-- Only without any stops there is no first one. -/
theorem first?_eq_none_iff : first? stops = none ↔ stops = [] := by
  cases stops with
  | nil => exact ⟨fun _ => rfl, fun _ => rfl⟩
  | cons a rest =>
    rw [first?]
    cases first? rest <;> exact ⟨nofun, nofun⟩

/-- The first stop is one of them, and none is before it. -/
theorem first?_spec {first : Stop} (h : first? stops = some first) :
    first ∈ stops ∧ ∀ stop ∈ stops, ¬ stop.isBefore first := by
  induction stops generalizing first with
  | nil => cases h
  | cons a rest ih =>
    rw [first?] at h
    cases hrest : first? rest with
    | none =>
      rw [hrest] at h
      obtain rfl := Option.some.inj h
      rw [first?_eq_none_iff.1 hrest]
      exact ⟨List.mem_cons_self, List.forall_mem_singleton.2 (not_isBefore_self a)⟩
    | some b =>
      rw [hrest] at h
      obtain ⟨hmem, hb⟩ := ih hrest
      by_cases hbefore : b.isBefore a
      · obtain rfl : b = first := by simpa [hbefore] using h
        refine ⟨List.mem_cons_of_mem _ hmem, List.forall_mem_cons.2 ⟨?_, hb⟩⟩
        rw [isBefore_iff] at hbefore ⊢
        omega
      · obtain rfl : a = first := by simpa [hbefore] using h
        refine ⟨List.mem_cons_self, List.forall_mem_cons.2 ⟨not_isBefore_self a, ?_⟩⟩
        exact fun stop hstop => not_isBefore_trans hbefore (hb stop hstop)

/-- **The first stop** is one that none of the others comes before. -/
theorem first?_eq_some_iff {first : Stop} :
    first? stops = some first ↔ first ∈ stops ∧ ∀ stop ∈ stops, ¬ stop.isBefore first := by
  refine ⟨first?_spec, fun ⟨hmem, hfirst⟩ => ?_⟩
  cases h : first? stops with
  | none => exact absurd (first?_eq_none_iff.1 h ▸ hmem) List.not_mem_nil
  | some other =>
    obtain ⟨hmem', hother⟩ := first?_spec h
    rw [eq_of_not_isBefore (hother first hmem) (hfirst other hmem')]

end Stop

namespace Visit

variable {v : Visit} {stop : Stop}

/-- The stops of a connection are the one of its visitor, and those that are asked for in its
run. -/
theorem mem_stops : stop ∈ v.stops ↔ stop.teller? = some v.number ∧
    (v.visitor.stopsServer = true ∧ stop.time = v.acceptedAt ∨
      ∃ stamped ∈ v.run.trace, stamped.event = .stopAsked ∧
        stop.time = v.acceptedAt + stamped.time) := by
  rw [stops, List.mem_append, List.mem_filterMap, and_or_left]
  refine or_congr ?_ ⟨fun ⟨stamped, hmem, heq⟩ => ?_,
    fun ⟨hteller, stamped, hmem, hevent, htime⟩ => ?_⟩
  · split
    case isTrue hasks =>
      rw [List.mem_singleton]
      refine ⟨fun heq => heq ▸ ⟨rfl, hasks, rfl⟩, fun ⟨hteller, _, htime⟩ => ?_⟩
      rw [← hteller, ← htime]
    case isFalse hasks =>
      exact ⟨nofun, fun h => absurd h.2.1 hasks⟩
  · split at heq
    case isTrue hevent =>
      obtain rfl := Option.some.inj heq
      exact ⟨rfl, stamped, hmem, hevent, rfl⟩
    case isFalse => cases heq
  · refine ⟨stamped, hmem, ?_⟩
    rw [if_pos hevent, ← hteller, ← htime]

/-- The peer of a visit tells stops after the accept, or at the same time. -/
theorem le_of_mem_stops (h : stop ∈ v.stops) : v.acceptedAt ≤ stop.time := by
  obtain ⟨-, ⟨-, htime⟩ | ⟨stamped, -, -, htime⟩⟩ := mem_stops.1 h
  · exact Nat.le_of_eq htime.symm
  · exact htime ▸ Nat.le_add_right _ _

end Visit

namespace Service

variable {c : Context} {first : Stop} {offers : List Offer} {number now time : Nat}
  {slots : Slots}

/-! ### The loop up to the first stop -/

theorem told?_none (c : Context) (number : Nat) : c.told? none number = c.stop? := rfl

theorem told?_of_le (h : first.after ≤ number) :
    c.told? (some first) number = some first.time := by
  rw [Context.told?, Option.filter_some, if_pos (decide_eq_true h)]

theorem told?_of_lt (h : number < first.after) : c.told? (some first) number = c.stop? := by
  rw [Context.told?, Option.filter_some, if_neg]
  rw [decide_eq_true_eq]
  exact Nat.not_le.2 h

/-- Until a stop the loop waits for a slot as it does if it is told later or not at all. -/
theorem acquire_of_le {stop? : Option Nat} (hstop : ∀ t, stop? = some t → time ≤ t)
    (hnow : now ≤ time) (slots : Slots) :
    acquire (some time) now slots = .stopped time ∨
      ∃ now' slots', now' < time ∧ acquire (some time) now slots = .slot now' slots' ∧
        acquire stop? now slots = .slot now' slots' := by
  obtain ⟨now', hslot, hleast, hlt⟩ | ⟨t, ht, hstopped, -⟩ | ⟨hnone, -⟩ :=
    acquire_cases (some time) now slots
  · have htime := hlt time rfl
    refine .inr ⟨now', _, htime, hslot, ?_⟩
    obtain ⟨now'', hslot', hleast', -⟩ | ⟨t, ht, -, hle⟩ | ⟨-, -, hempty⟩ :=
      acquire_cases stop? now slots
    · rw [hslot', hleast'.unique hleast]
    · have hlater := hstop t ht
      have hfree := hle now' hleast.1
      omega
    · exact absurd (hempty ▸ hleast.1) (Set.notMem_empty _)
  · obtain rfl := Option.some.inj ht
    rw [hstopped, Nat.max_eq_right hnow]
    exact .inl rfl
  · cases hnone

/-- A report of the loop, from a number of accepted connections on, ends with the first stop, and up
to there it is another one. The connection whose peer tells the stop is among those accepted. -/
structure Report.EndsAt (cut r : Report) (first : Stop) (number : Nat) : Prop where
  visits : cut.visits <+: r.visits
  returnedAt_eq : cut.returnedAt = some first.time
  after_le : first.after ≤ number + cut.visits.length

/-- A loop that is told to stop ends there. -/
theorem endsAt_stopped (hafter : first.after ≤ number) (r : Report) :
    (stopped c first.time).EndsAt r first number :=
  ⟨List.nil_prefix, rfl, hafter⟩

/-- Ending at a stop goes on behind a connection that was taken. -/
theorem Report.EndsAt.connection {cut r : Report} (h : cut.EndsAt r first (number + 1)) (now : Nat)
    (visit : Visit) (notices : List Notice) (move : Slots.Move) (slots : Slots) :
    (((cut.afterVisit visit).afterLog now notices).afterMove now move slots).EndsAt
      (((r.afterVisit visit).afterLog now notices).afterMove now move slots) first number := by
  obtain ⟨hvisits, hreturned, hafter⟩ := h
  refine ⟨List.cons_prefix_cons.2 ⟨rfl, hvisits⟩, hreturned, ?_⟩
  rw [Report.afterMove, Report.afterLog, Report.afterVisit, List.length_cons]
  omega

/-- Once the loop knows of the first stop, it goes on as otherwise up to then. -/
theorem endsAt_withSlot_of_le (hstop : ∀ t, c.stop? = some t → first.time ≤ t)
    (hafter : first.after ≤ number) (hnow : now ≤ first.time) (slots : Slots)
    (haccept : ∀ now slots, now < first.time →
      (accept c (some first) offers number now slots).EndsAt (accept c none offers number now slots)
        first number) :
    (withSlot c (c.told? (some first) number) now slots
      (accept c (some first) offers number)).EndsAt
      (withSlot c (c.told? none number) now slots (accept c none offers number)) first number := by
  unfold withSlot
  rw [told?_of_le hafter, told?_none]
  obtain hstopped | ⟨now', slots', hlt, hslot, hslot'⟩ := acquire_of_le hstop hnow slots
  · rw [hstopped]
    exact endsAt_stopped hafter _
  · rw [hslot, hslot']
    exact { haccept now' slots' hlt with }

theorem endsAt_accept_of_le (hstop : ∀ t, c.stop? = some t → first.time ≤ t) (offers : List Offer) :
    ∀ number now slots, first.after ≤ number → now < first.time →
      (accept c (some first) offers number now slots).EndsAt (accept c none offers number now slots)
        first number := by
  induction offers with
  | nil =>
    intro number now slots hafter hnow
    rw [accept, told?_of_le hafter]
    exact endsAt_stopped hafter _
  | cons offer rest ih =>
    intro number now slots hafter hnow
    cases offer with
    | wait ms =>
      rw [accept, accept, told?_of_le hafter, told?_none]
      by_cases hle : first.time ≤ now + ms
      · rw [Option.filter_some, if_pos (decide_eq_true hle)]
        exact endsAt_stopped hafter _
      · have hnone : c.stop?.filter (· ≤ now + ms) = none :=
          filter_le_eq_none_iff.2 fun t ht => Nat.lt_of_lt_of_le (Nat.lt_of_not_le hle) (hstop t ht)
        rw [Option.filter_some, if_neg (by rwa [decide_eq_true_eq]), hnone]
        exact ih number (now + ms) slots hafter (Nat.lt_of_not_le hle)
    | fail kind =>
      have hrest := endsAt_withSlot_of_le hstop hafter (Nat.le_of_lt hnow)
        (slots.after .giveBack) (ih number · · hafter)
      exact { hrest with }
    | connection visitor =>
      have hafter' := Nat.le_succ_of_le hafter
      exact (endsAt_withSlot_of_le hstop hafter' (Nat.le_of_lt hnow) _
        (ih (number + 1) · · hafter')).connection now _ _ _ _

/-- Among visits is that of the connection whose peer tells a stop. -/
def HasTeller (first : Stop) (visits : List Visit) : Prop :=
  ∃ v ∈ visits, v.number + 1 = first.after ∧ v.acceptedAt ≤ first.time

/-- As long as the connection that tells the first stop is still to come, the loop goes on as
otherwise. -/
theorem endsAt_withSlot_of_lt (hafter : number < first.after) (hheld : slots.held = 0)
    (haccept : ∀ now slots, slots.held = 1 → (∀ t, c.told? none number = some t → now < t) →
      HasTeller first (accept c none offers number now slots).visits →
        (accept c (some first) offers number now slots).EndsAt
          (accept c none offers number now slots) first number)
    (hteller : HasTeller first
      (withSlot c (c.told? none number) now slots (accept c none offers number)).visits) :
    (withSlot c (c.told? (some first) number) now slots
      (accept c (some first) offers number)).EndsAt
      (withSlot c (c.told? none number) now slots (accept c none offers number)) first number := by
  rw [told?_of_lt hafter, ← told?_none c number]
  revert hteller
  unfold withSlot
  obtain ⟨now', hslot, -, htold⟩ | ⟨t, -, hstopped, -⟩ | ⟨-, hnever, -⟩ :=
    acquire_cases (c.told? none number) now slots
  · have hheld' : ((slots.release now').after .take).held = 1 := congrArg (· + 1) hheld
    rw [hslot]
    exact fun hteller => { haccept now' _ hheld' htold hteller with }
  · rw [hstopped]
    exact fun ⟨v, hmem, _⟩ => absurd hmem List.not_mem_nil
  · rw [hnever]
    exact fun ⟨v, hmem, _⟩ => absurd hmem List.not_mem_nil

theorem endsAt_accept_of_lt (hstop : ∀ t, c.stop? = some t → first.time ≤ t) (offers : List Offer) :
    ∀ number now slots, number < first.after → slots.held = 1 →
      (∀ t, c.told? none number = some t → now < t) →
        HasTeller first (accept c none offers number now slots).visits →
          (accept c (some first) offers number now slots).EndsAt
            (accept c none offers number now slots) first number := by
  induction offers with
  | nil =>
    intro number now slots _ _ _ ⟨v, hmem, _⟩
    rw [accept] at hmem
    cases htold : c.told? none number <;> rw [htold] at hmem <;> cases hmem
  | cons offer rest ih =>
    intro number now slots hafter hheld hnow hteller
    cases offer with
    | wait ms =>
      rw [accept] at hteller
      rw [accept, accept, told?_of_lt hafter, ← told?_none c number]
      cases hfilter : (c.told? none number).filter (· ≤ now + ms) with
      | some t =>
        rw [hfilter] at hteller
        obtain ⟨v, hmem, -⟩ := hteller
        cases hmem
      | none =>
        rw [hfilter] at hteller
        have hlater := filter_le_eq_none_iff.1 hfilter
        exact ih number (now + ms) slots hafter hheld hlater hteller
    | fail kind =>
      have hheld' : (slots.after .giveBack).held = 0 := congrArg (· - 1) hheld
      have hrest := endsAt_withSlot_of_lt hafter hheld' (ih number · · hafter) hteller
      exact { hrest with }
    | connection visitor =>
      obtain ⟨v, hmem, hnumber, hle⟩ := hteller
      have hheld' : ∀ ending, (slots.after (.handOver ending)).held = 0 :=
        fun _ => congrArg (· - 1) hheld
      have htakes := (leads_accept (.connection visitor :: rest) number now slots hheld hnow).takes
      have hv := htakes.now_le v hmem
      by_cases hafter' : number + 1 < first.after
      · -- the connection that tells is one of the later ones
        have hmem' := (List.mem_cons.1 hmem).resolve_left fun heq => by
          have hhead : v.number = number := congrArg Visit.number heq
          omega
        have hrest := endsAt_withSlot_of_lt hafter' (hheld' _) (ih (number + 1) · · hafter')
          ⟨v, hmem', hnumber, hle⟩
        exact hrest.connection now (Visit.ofVisitor c.settings c.stop? number now visitor) _ _ _
      · have hafter'' : first.after ≤ number + 1 := Nat.le_of_not_lt hafter'
        have hrest := endsAt_withSlot_of_le hstop hafter'' (Nat.le_trans hv hle)
          (slots.after (.handOver (Visit.ofVisitor c.settings c.stop? number now visitor).endedAt?))
          (endsAt_accept_of_le hstop rest (number + 1) · · hafter'')
        exact hrest.connection now (Visit.ofVisitor c.settings c.stop? number now visitor) _ _ _

theorem mem_stops {stop : Stop} {visits : List Visit} :
    stop ∈ c.stops visits ↔
      stop.teller? = none ∧ c.stop? = some stop.time ∨ ∃ v ∈ visits, stop ∈ v.stops := by
  rw [Context.stops, List.mem_append, List.mem_flatMap]
  refine or_congr_left ⟨fun h => ?_, fun ⟨hteller, hstop⟩ => ?_⟩
  · obtain ⟨t, ht, rfl⟩ := List.mem_map.1 h
    exact ⟨rfl, Option.mem_toList.1 ht⟩
  · refine List.mem_map.2 ⟨stop.time, Option.mem_toList.2 hstop, ?_⟩
    rw [← hteller]

/-- The first stop is not later than the one from outside. -/
theorem le_stop_of_first? {visits : List Visit} (h : Stop.first? (c.stops visits) = some first) :
    ∀ t, c.stop? = some t → first.time ≤ t := fun t ht =>
  Stop.time_le_of_not_isBefore ((Stop.first?_spec h).2 ⟨t, none⟩ (mem_stops.2 (.inl ⟨rfl, ht⟩)))

/-- **The loop ends with the first stop**, and goes on until then as if no peer told it to stop. -/
theorem endsAt_loop (h : Stop.first? (c.stops (loop c none offers).visits) = some first) :
    (loop c (some first) offers).EndsAt (loop c none offers) first 0 := by
  have hstop := le_stop_of_first? h
  cases hafter : first.after with
  | zero =>
    exact endsAt_withSlot_of_le hstop (Nat.le_of_eq hafter) (Nat.zero_le _) _
      (endsAt_accept_of_le hstop offers 0 · · (Nat.le_of_eq hafter))
  | succ k =>
    have hlt : 0 < first.after := hafter ▸ Nat.succ_pos k
    refine endsAt_withSlot_of_lt hlt rfl (endsAt_accept_of_lt hstop offers 0 · · hlt) ?_
    obtain ⟨hteller, -⟩ | ⟨v, hmem, hv⟩ := mem_stops.1 (Stop.first?_spec h).1
    · rw [Stop.after, hteller] at hafter
      cases hafter
    · refine ⟨v, hmem, ?_, Visit.le_of_mem_stops hv⟩
      rw [Stop.after, (Visit.mem_stops.1 hv).1]
      rfl

end Service

end HttpEcho
