import HttpEcho.Proofs.Waiting
import Mathlib.Order.Bounds.Defs

/-!
# Reads and stops

A read leaves the peer with what is known of a stop: whether it was asked for, and when it comes
from elsewhere (`Peer.stopped_read`, `Peer.stopAt_read`). The wait for the first octet of a request
is over at the first stop, if nothing arrives up to then (`Peer.stopped_read_of_isLeast`).
-/

namespace HttpEcho

/-- Whether the server was told to stop. -/
def Trace.asksStop (trace : Trace) : Bool := trace.any (·.event = .stopAsked)

theorem Trace.asksStop_append (trace trace' : Trace) :
    Trace.asksStop (trace ++ trace') = (trace.asksStop || trace'.asksStop) := List.any_append

/-- A read is over at a time because the server is told to stop, by the last move of the peer or
from elsewhere. If its deadline comes at that time too, it may pass for the reason. -/
structure Reading.Stopped (r : Reading) (deadline time : Nat) : Prop where
  result_eq : r.result = .error .stop ∨ r.result = .error .deadline ∧ time = deadline
  now_eq : r.peer.now = time
  trace_eq : ∃ passed asked : Trace, r.trace = passed ++ asked ∧ passed.OnlyReceived ∧
    (asked = [] ∨ asked = [⟨time, .stopAsked⟩])

theorem Reading.Stopped.after {r : Reading} {deadline time : Nat} {trace : Trace}
    (h : r.Stopped deadline time) (htrace : trace.OnlyReceived) :
    (r.after trace).Stopped deadline time := by
  obtain ⟨hresult, hnow, passed, asked, heq, hpassed, hasked⟩ := h
  refine ⟨hresult, hnow, trace ++ passed, asked, ?_, htrace.append hpassed, hasked⟩
  rw [Reading.after, heq, List.append_assoc]

namespace Peer

variable {p : Peer} {patience : Patience} {script : List Move} {deadline target time : Nat}
  {silence : Silence}

/-! ### What is known of a stop -/

theorem stopAt_readFrom (patience : Patience) (script : List Move) (p : Peer) :
    (readFrom patience script p).peer.stopAt = p.stopAt := by
  fun_induction readFrom patience script p with
  | case2 octets rest p _ _ ih | case7 ms rest p _ ih | case12 rest p _ _ _ _ ih => exact ih
  | _ => rfl

/-- When a stop comes from elsewhere does not change. -/
theorem stopAt_read (p : Peer) (patience : Patience) : (p.read patience).peer.stopAt = p.stopAt :=
  stopAt_readFrom patience p.script p

theorem stopped_readFrom (patience : Patience) (script : List Move) (p : Peer) :
    (readFrom patience script p).peer.stopped =
      (p.stopped || (readFrom patience script p).trace.asksStop) := by
  fun_induction readFrom patience script p with
  | case2 octets rest p _ _ ih | case7 ms rest p _ ih => exact ih
  | case10 rest p | case11 rest p => exact (Bool.or_true _).symm
  | case12 rest p _ _ _ _ ih => exact ih.trans (Bool.or_true _).symm
  | _ => exact (Bool.or_false _).symm

/-- A stop was asked for if it had been before, or was during the read. -/
theorem stopped_read (p : Peer) (patience : Patience) :
    (p.read patience).peer.stopped = (p.stopped || (p.read patience).trace.asksStop) :=
  stopped_readFrom patience p.script p

/-! ### Stops while nothing arrives -/

/-- When the moves of a list that begin at a time tell the server to stop, if nothing arrives up to
then. -/
def stopFrom (now : Nat) : List Move → Option Nat
  | .stopServer :: _ => some now
  | .send octets :: rest => if octets.isEmpty then stopFrom now rest else none
  | .wait ms :: rest => stopFrom (now + ms) rest
  | _ => none

/-- The server is told to stop at a time, and nothing arrives up to then. -/
inductive StopsAt (p : Peer) : Nat → Prop
  | move {time : Nat} : stopFrom p.now p.script = some time → StopsAt p time
  | elsewhere {t time : Nat} : p.stopAt = some t → time = max p.now t →
      (∀ arrival, p.arrival? = some arrival → time < arrival) → StopsAt p time

/-- A stop that is to come is not earlier than now. -/
theorem le_of_stopFrom {now : Nat} (h : stopFrom now script = some time) : now ≤ time := by
  fun_induction stopFrom now script with
  | case1 now rest => exact Nat.le_of_eq (Option.some.inj h)
  | case2 now octets rest _ ih => exact ih h
  | case3 => cases h
  | case4 now ms rest ih => exact Nat.le_trans (Nat.le_add_right _ _) (ih h)
  | case5 => cases h

/-- What arrives comes after the stop that nothing arrives before. -/
theorem lt_of_stopFrom {now arrival : Nat} (h : stopFrom now script = some time)
    (harrival : arrivalFrom now script = some arrival) : time < arrival := by
  fun_induction stopFrom now script with
  | case1 now rest =>
    cases h
    exact le_of_arrivalFrom harrival
  | case2 now octets rest hempty ih =>
    rw [arrivalFrom, if_pos hempty] at harrival
    exact ih h harrival
  | case3 => cases h
  | case4 now ms rest ih => exact ih h harrival
  | case5 => cases h

theorem StopsAt.now_le (h : p.StopsAt time) : p.now ≤ time := by
  cases h with
  | move hstop => exact le_of_stopFrom hstop
  | elsewhere _ htime => exact htime ▸ Nat.le_max_left _ _

/-- A peer whose next stops and arrivals are the same is told to stop at the same times. -/
theorem stopsAt_congr {p' : Peer} (hstopFrom : stopFrom p'.now p'.script = stopFrom p.now p.script)
    (harrival : p'.arrival? = p.arrival?) (hstopAt : p'.stopAt = p.stopAt)
    (hmax : ∀ t, p.stopAt = some t → max p'.now t = max p.now t) :
    {t | p'.StopsAt t} = {t | p.StopsAt t} := by
  ext time
  constructor
  · rintro (hmove | ⟨ht, htime, hsilent⟩)
    · exact .move (hstopFrom ▸ hmove)
    · rw [hstopAt] at ht
      exact .elsewhere ht (htime.trans (hmax _ ht)) (harrival ▸ hsilent)
  · rintro (hmove | ⟨ht, htime, hsilent⟩)
    · exact .move (hstopFrom ▸ hmove)
    · exact .elsewhere (hstopAt.trans ht) (htime.trans (hmax _ ht).symm) (harrival ▸ hsilent)

/-- Before something arrives at once, the server is not told to stop. -/
theorem StopsAt.ne_arrival (h : p.StopsAt time) : p.arrival? ≠ some p.now := by
  intro harrival
  have hnow := h.now_le
  cases h with
  | move hstop => exact absurd (lt_of_stopFrom hstop harrival) (Nat.not_lt.2 hnow)
  | elsewhere _ _ hsilent => exact absurd (hsilent _ harrival) (Nat.not_lt.2 hnow)

section Idle

variable {target : Option Nat} (hidle : patience.idle = true)
  (hdeadline : patience.deadline = some deadline) (hnow : p.now ≤ deadline)

include hidle hdeadline hnow

/-- An idle wait is interrupted by a stop, or by its deadline if no stop comes up to then. -/
theorem interruption?_cases_of_idle
    (h : p.interruption? patience target = some (silence, time)) :
    target.all (time < ·) ∧
      ((∃ t, p.stopAt = some t ∧ silence = .stop ∧ time = max p.now t ∧ time ≤ deadline) ∨
        silence = .deadline ∧ time = deadline ∧
          ∀ t, p.stopAt = some t → deadline < max p.now t) := by
  unfold interruption? at h
  simp only [hidle, hdeadline, if_true, Option.map_some, Nat.max_eq_right hnow,
    Option.filter_some] at h
  cases hstop : p.stopAt <;> cases target
  all_goals
    rw [hstop] at h
    simp only [Option.map_none, Option.map_some, Option.filter_none, Option.filter_some,
      Option.all_none, Option.all_some, decide_eq_true_eq] at h ⊢
    grind

/-- An idle wait that is not interrupted is over before any stop and before its deadline. -/
theorem le_of_interruption?_eq_none (h : p.interruption? patience target = none) :
    ∃ end', target = some end' ∧ end' ≤ deadline ∧ ∀ t, p.stopAt = some t → end' ≤ max p.now t := by
  unfold interruption? at h
  simp only [hidle, hdeadline, if_true, Option.map_some, Nat.max_eq_right hnow,
    Option.filter_some] at h
  cases hstop : p.stopAt <;> cases target
  all_goals
    rw [hstop] at h
    simp only [Option.map_none, Option.map_some, Option.filter_none, Option.filter_some,
      Option.all_none, Option.all_some, decide_eq_true_eq] at h ⊢
    grind

end Idle

/-- An idle read is stopped by the first stop that comes by its deadline. -/
theorem stopped_readFrom_of_isLeast (hidle : patience.idle = true)
    (hdeadline : patience.deadline = some deadline) (hle : time ≤ deadline) :
    p.script = script → IsLeast {t | p.StopsAt t} time →
      (readFrom patience script p).Stopped deadline time := by
  fun_induction readFrom patience script p with
  | case1 p | case4 rest p | case5 kind rest p =>
    intro hscript hleast
    exact absurd (congrArg (arrivalFrom p.now) hscript) hleast.1.ne_arrival
  | case3 octets rest p trace hempty =>
    intro hscript hleast
    have harrival : p.arrival? = some p.now := by
      rw [arrival?, hscript, arrivalFrom, if_neg hempty]
    exact absurd harrival hleast.1.ne_arrival
  | case2 octets rest p trace hempty ih =>
    intro hscript hleast
    have hsame : {t | (p.advance rest p.now).StopsAt t} = {t | p.StopsAt t} := by
      refine stopsAt_congr ?_ ?_ rfl fun _ _ => rfl
      · rw [hscript, stopFrom, if_pos hempty]
        rfl
      · rw [arrival?, arrival?, hscript, arrivalFrom, if_pos hempty]
        rfl
    exact (ih rfl (hsame ▸ hleast)).after (Trace.onlyReceived_stamp _ _)
  | case6 ms rest p silence time' hsome =>
    intro hscript hleast
    have hnow := Nat.le_trans hleast.1.now_le hle
    obtain ⟨hbefore, hcases⟩ := interruption?_cases_of_idle hidle hdeadline hnow hsome
    rw [Option.all_some, decide_eq_true_eq] at hbefore
    -- what comes of the moves comes after the wait
    have helsewhere : time < p.now + ms → ∃ t, p.stopAt = some t ∧ time = max p.now t := by
      intro hlt
      cases hleast.1 with
      | move hstop =>
        rw [hscript, stopFrom] at hstop
        exact absurd hlt (Nat.not_lt.2 (le_of_stopFrom hstop))
      | elsewhere ht htime => exact ⟨_, ht, htime⟩
    obtain ⟨t, ht, rfl, rfl, -⟩ | ⟨rfl, rfl, hnone⟩ := hcases
    · have hstop : p.StopsAt (max p.now t) := by
        refine .elsewhere ht rfl fun arrival harrival => Nat.lt_of_lt_of_le hbefore ?_
        rw [arrival?, hscript] at harrival
        exact le_of_arrivalFrom harrival
      obtain ⟨t', ht', htime⟩ := helsewhere (Nat.lt_of_le_of_lt (hleast.2 hstop) hbefore)
      cases ht.symm.trans ht'
      exact ⟨.inl rfl, htime.symm, [], [], rfl, List.forall_mem_nil _, .inl rfl⟩
    · obtain ⟨t, ht, htime⟩ := helsewhere (Nat.lt_of_le_of_lt hle hbefore)
      exact absurd (hnone t ht) (Nat.not_lt.2 (htime ▸ hle))
  | case7 ms rest p hnone ih =>
    intro hscript hleast
    have hnow := Nat.le_trans hleast.1.now_le hle
    obtain ⟨_, ⟨⟩, hend, hstops⟩ := le_of_interruption?_eq_none hidle hdeadline hnow hnone
    have hsame : {t | (p.advance rest (p.now + ms)).StopsAt t} = {t | p.StopsAt t} := by
      refine stopsAt_congr ?_ ?_ rfl fun t ht => ?_
      · rw [hscript]
        rfl
      · rw [arrival?, arrival?, hscript]
        rfl
      · have hstop := hstops t ht
        change max (p.now + ms) t = max p.now t
        omega
    exact ih rfl (hsame ▸ hleast)
  | case8 rest p silence time' hsome =>
    intro hscript hleast
    have hnow := Nat.le_trans hleast.1.now_le hle
    obtain ⟨-, hcases⟩ := interruption?_cases_of_idle hidle hdeadline hnow hsome
    cases hleast.1 with
    | move hstop =>
      rw [hscript] at hstop
      cases hstop
    | @elsewhere t _ ht htime _ =>
      obtain ⟨_, ht', rfl, rfl, -⟩ | ⟨rfl, rfl, hnone⟩ := hcases
      · cases ht.symm.trans ht'
        exact ⟨.inl rfl, htime.symm, [], [], rfl, List.forall_mem_nil _, .inl rfl⟩
      · exact absurd (hnone t ht) (Nat.not_lt.2 (htime ▸ hle))
  | case9 rest p hnone =>
    intro hscript hleast
    have hnow := Nat.le_trans hleast.1.now_le hle
    obtain ⟨_, ⟨⟩, -⟩ := le_of_interruption?_eq_none hidle hdeadline hnow hnone
  | case10 rest p asked stopped _ =>
    intro hscript hleast
    have hstop : p.StopsAt p.now := .move (by rw [hscript]; rfl)
    obtain rfl : time = p.now := Nat.le_antisymm (hleast.2 hstop) hleast.1.now_le
    refine ⟨?_, rfl, [], asked, rfl, List.forall_mem_nil _, .inr rfl⟩
    rw [hdeadline, Option.any_some]
    by_cases htie : deadline ≤ p.now
    · rw [if_pos (decide_eq_true htie)]
      exact .inr ⟨rfl, Nat.le_antisymm hle htie⟩
    · rw [if_neg (by rwa [decide_eq_true_eq])]
      exact .inl rfl
  | case11 rest p _ _ hnot | case12 rest p _ _ hnot => exact absurd hidle hnot

/-- **A stop ends the wait for the first octet of a request**, if nothing arrives up to then. -/
theorem stopped_read_of_isLeast (hidle : patience.idle = true)
    (hdeadline : patience.deadline = some deadline) (hleast : IsLeast {t | p.StopsAt t} time)
    (hle : time ≤ deadline) : (p.read patience).Stopped deadline time :=
  stopped_readFrom_of_isLeast hidle hdeadline hle rfl hleast

end Peer

end HttpEcho
