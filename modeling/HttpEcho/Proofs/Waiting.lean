import HttpEcho.Proofs.Peer

/-!
# Reads with a deadline

When the next thing arrives from a peer that does not tell the server to stop is known from its
script alone (`Peer.arrival?`). A read with a deadline delivers it at that time if that is not after
the deadline (`Peer.Unstopped.delivers_read`), and else brings nothing, at the time of the deadline
(`Peer.Unstopped.silent_read`).
-/

namespace HttpEcho

/-- Whether an event belongs to the peer: something that arrives, or a stop that is asked for. -/
def Event.isOfPeer : Event → Bool
  | .received _ | .endOfInput | .readFailed _ | .stopAsked => true
  | _ => false

/-- Nothing but moves of the peer were received. -/
def Trace.OnlyReceived (trace : Trace) : Prop :=
  ∀ stamped ∈ trace, ∃ move, stamped.event = .received move

/-- The event as which something arrives. -/
def Arrival.Shows : Arrival → Event → Prop
  | .octets _, event => ∃ move, event = .received move
  | .endOfInput, event => event = .endOfInput
  | .failure kind, event => event = .readFailed kind

/-- A read delivers something at a time. What comes before it are moves without octets. -/
structure Reading.Delivers (r : Reading) (arrival : Arrival) (time : Nat) : Prop where
  result_eq : r.result = .ok arrival
  now_eq : r.peer.now = time
  trace_eq : ∃ (passed : Trace) (event : Event), r.trace = passed ++ [⟨time, event⟩] ∧
    passed.OnlyReceived ∧ arrival.Shows event

/-- A read brings nothing up to its deadline. -/
structure Reading.Silent (r : Reading) (deadline : Nat) : Prop where
  result_eq : r.result = .error .deadline
  now_eq : r.peer.now = deadline
  trace_eq : r.trace.OnlyReceived

theorem Trace.OnlyReceived.append {trace trace' : Trace} (h : trace.OnlyReceived)
    (h' : trace'.OnlyReceived) : Trace.OnlyReceived (trace ++ trace') :=
  List.forall_mem_append.2 ⟨h, h'⟩

theorem Trace.onlyReceived_stamp (time move : Nat) : (stamp time [.received move]).OnlyReceived :=
  List.forall_mem_singleton.2 ⟨move, rfl⟩

theorem Reading.Delivers.after {r : Reading} {arrival : Arrival} {time : Nat} {trace : Trace}
    (h : r.Delivers arrival time) (htrace : trace.OnlyReceived) :
    (r.after trace).Delivers arrival time := by
  obtain ⟨hresult, hnow, passed, event, heq, hpassed, hshows⟩ := h
  refine ⟨hresult, hnow, trace ++ passed, event, ?_, htrace.append hpassed, hshows⟩
  rw [Reading.after, heq, List.append_assoc]

theorem Reading.Silent.after {r : Reading} {deadline : Nat} {trace : Trace} (h : r.Silent deadline)
    (htrace : trace.OnlyReceived) : (r.after trace).Silent deadline :=
  ⟨h.result_eq, h.now_eq, htrace.append h.trace_eq⟩

namespace Peer

/-- When the next thing arrives of the moves of a list that begin at a time. -/
def arrivalFrom (now : Nat) : List Move → Option Nat
  | [] | .close :: _ | .fail _ :: _ => some now
  | .send octets :: rest => if octets.isEmpty then arrivalFrom now rest else some now
  | .wait ms :: rest => arrivalFrom (now + ms) rest
  | .hang :: _ => none
  | .stopServer :: rest => arrivalFrom (now + 1) rest

/-- When the next thing arrives: octets, the end of input or a failure. -/
def arrival? (p : Peer) : Option Nat := arrivalFrom p.now p.script

/-- The server is never told to stop. -/
structure Unstopped (p : Peer) : Prop where
  stopAt_eq : p.stopAt = none
  notMem : .stopServer ∉ p.script

variable {p : Peer} {patience : Patience} {script : List Move} {deadline time : Nat}

/-- A wait that no stop can end is ended by its deadline, if that is before what is waited for. -/
theorem interruption?_of_deadline (hstopAt : p.stopAt = none)
    (hdeadline : patience.deadline = some deadline) (hnow : p.now ≤ deadline)
    (target : Option Nat) :
    p.interruption? patience target =
      if target.all (deadline < ·) then some (.deadline, deadline) else none := by
  unfold interruption?
  rw [hstopAt, hdeadline]
  simp only [Option.map_none, Option.filter_none, ite_self, Option.map_some,
    Nat.max_eq_right hnow, Option.filter_some]
  by_cases hbefore : target.all (deadline < ·)
  · rw [if_pos hbefore, if_pos hbefore]
  · rw [if_neg hbefore, if_neg hbefore]

/-- The server is not told to stop later either. -/
theorem unstopped_readFrom (hstopAt : p.stopAt = none) (hscript : .stopServer ∉ script) :
    (readFrom patience script p).peer.Unstopped := by
  fun_induction readFrom patience script p with
  | case1 p => exact ⟨hstopAt, List.not_mem_nil⟩
  | case2 octets rest p _ _ ih | case7 ms rest p _ ih =>
    exact ih hstopAt fun hmem => hscript (List.mem_cons_of_mem _ hmem)
  | case3 octets rest p | case4 rest p | case5 kind rest p =>
    exact ⟨hstopAt, fun hmem => hscript (List.mem_cons_of_mem _ hmem)⟩
  | case6 ms rest p silence time _ =>
    refine ⟨hstopAt, fun hmem => ?_⟩
    rcases List.mem_cons.1 hmem with hmove | hmem
    · cases hmove
    · exact hscript (List.mem_cons_of_mem _ hmem)
  | case8 | case9 => exact ⟨hstopAt, hscript⟩
  | case10 | case11 | case12 => exact absurd List.mem_cons_self hscript

/-- Where the server is never told to stop, it is not told to stop after a read either. -/
theorem Unstopped.read (h : p.Unstopped) (patience : Patience) :
    (p.read patience).peer.Unstopped :=
  unstopped_readFrom h.stopAt_eq h.notMem

/-- What happens in a read belongs to the peer. -/
theorem isOfPeer_of_mem_read {stamped : Stamped} (h : stamped ∈ (p.read patience).trace) :
    stamped.event.isOfPeer := by
  revert h
  unfold read
  generalize p.script = script
  fun_induction readFrom patience script p with
  | case2 octets rest p _ _ ih | case12 rest p _ _ _ _ ih =>
    intro h
    rcases List.mem_cons.1 h with rfl | h
    · rfl
    · exact ih h
  | case7 ms rest p _ ih => exact ih
  | case1 | case3 | case4 | case5 | case10 | case11 =>
    intro h
    obtain rfl := List.mem_singleton.1 h
    rfl
  | case6 | case8 | case9 =>
    intro h
    cases h

/-- What arrives does so now or later. -/
theorem le_of_arrivalFrom {now : Nat} (h : arrivalFrom now script = some time) : now ≤ time := by
  fun_induction arrivalFrom now script with
  | case1 | case2 | case3 | case5 => exact Nat.le_of_eq (Option.some.inj h)
  | case4 now octets rest _ ih => exact ih h
  | case6 now ms rest ih => exact Nat.le_trans (Nat.le_add_right _ _) (ih h)
  | case7 => cases h
  | case8 now rest ih => exact Nat.le_trans (Nat.le_succ _) (ih h)

/-- Something that arrives by the deadline is delivered when it arrives. -/
theorem delivers_readFrom (hdeadline : patience.deadline = some deadline)
    (hstopAt : p.stopAt = none) (hscript : .stopServer ∉ script)
    (harrival : arrivalFrom p.now script = some time) (hle : time ≤ deadline) :
    ∃ arrival, (readFrom patience script p).Delivers arrival time := by
  have hnow := Nat.le_trans (le_of_arrivalFrom harrival) hle
  fun_induction readFrom patience script p with
  | case1 p =>
    cases harrival
    exact ⟨.endOfInput, rfl, rfl, [], .endOfInput, rfl, List.forall_mem_nil _, rfl⟩
  | case2 octets rest p trace hempty ih =>
    rw [arrivalFrom, if_pos hempty] at harrival
    obtain ⟨arrival, hdelivers⟩ :=
      ih hstopAt (fun hmem => hscript (List.mem_cons_of_mem _ hmem)) harrival hnow
    exact ⟨arrival, hdelivers.after (Trace.onlyReceived_stamp _ _)⟩
  | case3 octets rest p trace hempty =>
    rw [arrivalFrom, if_neg hempty] at harrival
    cases harrival
    exact ⟨.octets octets, rfl, rfl, [], .received p.index, rfl, List.forall_mem_nil _,
      p.index, rfl⟩
  | case4 rest p =>
    cases harrival
    exact ⟨.endOfInput, rfl, rfl, [], .endOfInput, rfl, List.forall_mem_nil _, rfl⟩
  | case5 kind rest p =>
    cases harrival
    exact ⟨.failure kind, rfl, rfl, [], .readFailed kind, rfl, List.forall_mem_nil _, rfl⟩
  | case6 ms rest p silence time' hsome =>
    -- a deadline during the wait would come before what arrives
    have hwait : p.now + ms ≤ time := le_of_arrivalFrom harrival
    rw [interruption?_of_deadline hstopAt hdeadline hnow, if_neg] at hsome
    · cases hsome
    · rw [Option.all_some, decide_eq_true_eq]
      omega
  | case7 ms rest p _ ih =>
    have hwait : p.now + ms ≤ time := le_of_arrivalFrom harrival
    exact ih hstopAt (fun hmem => hscript (List.mem_cons_of_mem _ hmem)) harrival
      (Nat.le_trans hwait hle)
  | case8 | case9 => cases harrival
  | case10 | case11 | case12 => exact absurd List.mem_cons_self hscript

/-- As long as nothing arrives, a read is silent. -/
theorem silent_readFrom (hdeadline : patience.deadline = some deadline)
    (hstopAt : p.stopAt = none) (hscript : .stopServer ∉ script) (hnow : p.now ≤ deadline)
    (hsilent : ∀ time, arrivalFrom p.now script = some time → deadline < time) :
    (readFrom patience script p).Silent deadline := by
  fun_induction readFrom patience script p with
  | case1 p | case4 rest p | case5 kind rest p =>
    have := hsilent p.now rfl
    omega
  | case2 octets rest p trace hempty ih =>
    rw [arrivalFrom, if_pos hempty] at hsilent
    have hread := ih hstopAt (fun hmem => hscript (List.mem_cons_of_mem _ hmem)) hnow hsilent
    exact hread.after (Trace.onlyReceived_stamp _ _)
  | case3 octets rest p trace hempty =>
    rw [arrivalFrom, if_neg hempty] at hsilent
    have := hsilent p.now rfl
    omega
  | case6 ms rest p silence time' hsome =>
    rw [interruption?_of_deadline hstopAt hdeadline hnow] at hsome
    split at hsome
    · cases hsome
      exact ⟨rfl, rfl, List.forall_mem_nil _⟩
    · cases hsome
  | case7 ms rest p hnone ih =>
    -- the deadline is not during the wait
    rw [interruption?_of_deadline hstopAt hdeadline hnow] at hnone
    split at hnone
    · cases hnone
    rename_i hwait
    rw [Option.all_some, decide_eq_true_eq] at hwait
    exact ih hstopAt (fun hmem => hscript (List.mem_cons_of_mem _ hmem)) (Nat.le_of_not_lt hwait)
      hsilent
  | case8 rest p silence time' hsome =>
    rw [interruption?_of_deadline hstopAt hdeadline hnow] at hsome
    cases hsome
    exact ⟨rfl, rfl, List.forall_mem_nil _⟩
  | case9 rest p hnone =>
    rw [interruption?_of_deadline hstopAt hdeadline hnow] at hnone
    cases hnone
  | case10 | case11 | case12 => exact absurd List.mem_cons_self hscript

/-- **What arrives by the deadline is delivered**, at the time at which it arrives. -/
theorem Unstopped.delivers_read (h : p.Unstopped) (hdeadline : patience.deadline = some deadline)
    (harrival : p.arrival? = some time) (hle : time ≤ deadline) :
    ∃ arrival, (p.read patience).Delivers arrival time :=
  delivers_readFrom hdeadline h.stopAt_eq h.notMem harrival hle

/-- **A read that nothing arrives for is over at the deadline.** -/
theorem Unstopped.silent_read (h : p.Unstopped) (hdeadline : patience.deadline = some deadline)
    (hnow : p.now ≤ deadline) (hsilent : ∀ time, p.arrival? = some time → deadline < time) :
    (p.read patience).Silent deadline :=
  silent_readFrom hdeadline h.stopAt_eq h.notMem hnow hsilent

/-- With a deadline, a read is silent, or delivers what arrives by then. -/
theorem Unstopped.read_cases (h : p.Unstopped) (hdeadline : patience.deadline = some deadline)
    (hnow : p.now ≤ deadline) :
    ((∀ time, p.arrival? = some time → deadline < time) ∧ (p.read patience).Silent deadline) ∨
      ∃ time arrival, time ≤ deadline ∧ (p.read patience).Delivers arrival time := by
  by_cases hsilent : ∀ time, p.arrival? = some time → deadline < time
  · exact .inl ⟨hsilent, h.silent_read hdeadline hnow hsilent⟩
  · obtain ⟨time, htime⟩ := Classical.not_forall.1 hsilent
    obtain ⟨harrival, hle⟩ := Classical.not_imp.1 htime
    obtain ⟨arrival, hdelivers⟩ := h.delivers_read hdeadline harrival (Nat.le_of_not_lt hle)
    exact .inr ⟨time, arrival, Nat.le_of_not_lt hle, hdelivers⟩

/-- A read with a deadline delivers nothing after it. -/
theorem Unstopped.now_le_read (h : p.Unstopped) (hdeadline : patience.deadline = some deadline)
    (hnow : p.now ≤ deadline) {arrival : Arrival} (hread : (p.read patience).result = .ok arrival) :
    (p.read patience).peer.now ≤ deadline := by
  obtain ⟨-, hsilent⟩ | ⟨time, arrival', hle, hdelivers⟩ := h.read_cases hdeadline hnow
  · cases hread.symm.trans hsilent.result_eq
  · exact hdelivers.now_eq ▸ hle

end Peer

end HttpEcho
