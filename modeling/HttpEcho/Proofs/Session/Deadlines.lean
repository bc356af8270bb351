import HttpEcho.Proofs.Connection.Deadlines
import HttpEcho.Proofs.Session.Turns

/-!
# Deadlines of a run

By when the head of a request has to be complete follows from what happened before (`HeadDue`):
within the headers timeout from the start for the first request, and for each later one from the
read that brings its first octet, or from the response before it if some of it was there by then.
Reads in between do not change it.

`Session.Timely` gathers what is true of a run that no stop and no failing send interferes with, and
`Session.timely_run` proves it: heads are accepted in time, silence ends the run at the deadline,
and a timeout is reported if a head has begun and is not settled by its deadline, and then only.
-/

namespace HttpEcho.Session

open Connection

/-- After what has happened, the head of which octets are there is due by a time. -/
inductive HeadDue (s : Settings) (p : Peer) : Trace → Nat → Prop
  /-- The first octets of the first request have been read. -/
  | first {trace : Trace} {deadline : Nat} {peer : Peer} {r : Reading} {octets : Bytes} :
      Reaches s p trace (.idle true deadline) peer →
      peer.read (patience (.idle true deadline)) = r → r.result = .ok (.octets octets) →
        HeadDue s p (trace ++ r.trace) (p.now + s.headersTimeout)
  /-- The first octets of a later request have been read. -/
  | later {trace : Trace} {deadline : Nat} {peer : Peer} {r : Reading} {octets : Bytes} :
      Reaches s p trace (.idle false deadline) peer →
      peer.read (patience (.idle false deadline)) = r → r.result = .ok (.octets octets) →
        HeadDue s p (trace ++ r.trace) (r.peer.now + s.headersTimeout)
  /-- More of a head has been read. -/
  | more {trace : Trace} {deadline : Nat} {buffer : Bytes} {peer : Peer} {r : Reading}
      {octets : Bytes} :
      Reaches s p trace (.head deadline buffer) peer → HeadDue s p trace deadline →
      peer.read (patience (.head deadline buffer)) = r → r.result = .ok (.octets octets) →
        HeadDue s p (trace ++ r.trace) deadline
  /-- A response has been sent, and octets of the next request are left. -/
  | left {trace : Trace} {time : Nat} {octets : Bytes} : Response.KeepsOpen octets →
      HeadDue s p (trace ++ [⟨time, .sent octets⟩]) (time + s.headersTimeout)

/-- An event after which a head is not waited for any more: it was accepted or refused, or nothing
more of it can arrive. -/
def settlesHead : Event → Prop
  | .logged (.request ..) | .logged (.parseFailed _) | .endOfInput | .readFailed _ => True
  | _ => False

/-- The response that reports a timeout. -/
def timeoutResponse : Bytes :=
  (Response.error .requestTimeout Status.requestTimeout.reason).encode .close false

/-- What the deadlines of a run mean. -/
structure Timely (s : Settings) (p : Peer) : Prop where
  /-- The first octet is awaited up to the headers timeout from the start, or up to the keep-alive
  timeout from the response before. -/
  idle : ∀ {trace : Trace} {first : Bool} {deadline : Nat} {peer : Peer},
    Reaches s p trace (.idle first deadline) peer →
      (first = true ∧ trace = [] ∧ deadline = p.now + s.headersTimeout) ∨
        first = false ∧ ∃ before time octets, Response.KeepsOpen octets ∧
          trace = before ++ [⟨time, .sent octets⟩] ∧ deadline = time + s.keepAliveTimeout
  /-- The rest of a head is awaited up to the time at which it is due. -/
  head : ∀ {trace : Trace} {deadline : Nat} {buffer : Bytes} {peer : Peer},
    Reaches s p trace (.head deadline buffer) peer → buffer ≠ [] ∧ HeadDue s p trace deadline
  /-- The head is due by one time. -/
  due_unique : ∀ {trace : Trace} {deadline deadline' : Nat},
    HeadDue s p trace deadline → HeadDue s p trace deadline' → deadline = deadline'
  /-- No head is accepted after the time at which it is due. -/
  accepted : ∀ {before after : Trace} {time : Nat} {method target : String},
    (run s none p).trace = before ++ ⟨time, .logged (.request method target)⟩ :: after →
      ∃ deadline, HeadDue s p before deadline ∧ time ≤ deadline
  /-- What arrives by the deadline, and be it at the time of the deadline, is delivered when it
  arrives, and the run goes on with the turn that octets bring about. -/
  punctual : ∀ {trace : Trace} {phase : Phase} {peer : Peer} {deadline time : Nat},
    Reaches s p trace phase peer → (patience phase).deadline = some deadline →
      peer.arrival? = some time → time ≤ deadline →
        ∃ arrival r, peer.read (patience phase) = r ∧ r.Delivers arrival time ∧
          ∀ octets turn, arrival = .octets octets →
            step s time r.peer.isStopping phase (.octets octets) = turn →
              Reaches s p (trace ++ (r.trace ++ shown time turn.actions)) turn.phase r.peer
  /-- If nothing arrives for a request, the run ends at the deadline, and nothing is sent. -/
  silence : ∀ {trace : Trace} {first : Bool} {deadline : Nat} {peer : Peer},
    Reaches s p trace (.idle first deadline) peer →
      (∀ time, peer.arrival? = some time → deadline < time) →
        ∃ passed : Trace, passed.OnlyReceived ∧ run s none p =
          { trace := trace ++ (passed ++ [⟨deadline, .logged .idleTimeout⟩])
            ending := some .closed, time := deadline }
  /-- If a head that has begun is not settled by its deadline, a timeout is reported then, and the
  run ends. -/
  timeout : ∀ {trace : Trace} {deadline : Nat} {buffer : Bytes} {peer : Peer},
    Reaches s p trace (.head deadline buffer) peer →
      ∃ passed : Trace, passed.OnlyReceived ∧
        ((∃ time event after, time ≤ deadline ∧ settlesHead event ∧
          (run s none p).trace = trace ++ (passed ++ ⟨time, event⟩ :: after)) ∨
        run s none p =
          { trace := trace ++ (passed ++ [⟨deadline, .logged .headTimeout⟩,
              ⟨deadline, .sent timeoutResponse⟩, ⟨deadline, .closed⟩])
            ending := some .closed, time := deadline })
  /-- A timeout is reported only at the deadline of a head that has begun, if nothing has arrived
  for it by then, and only closing comes after it. -/
  reported : ∀ {before after : Trace} {time : Nat} {octets : Bytes},
    (run s none p).trace = before ++ ⟨time, .sent octets⟩ :: after → Response.IsTimeout octets →
      ∃ (trace : Trace) (buffer : Bytes) (peer : Peer) (passed : Trace),
        Reaches s p trace (.head time buffer) peer ∧
          (∀ time', peer.arrival? = some time' → time < time') ∧ passed.OnlyReceived ∧
            before = trace ++ (passed ++ [⟨time, .logged .headTimeout⟩]) ∧
              after = [⟨time, .closed⟩]

/-! ### Waits and deadlines -/

theorem deadline_patience_idle (first : Bool) (deadline : Nat) :
    (patience (.idle first deadline)).deadline = some deadline := rfl

theorem deadline_patience_head (deadline : Nat) (buffer : Bytes) :
    (patience (.head deadline buffer)).deadline = some deadline := rfl

variable {s : Settings} {p peer : Peer} {r : Reading} {trace : Trace} {phase : Phase}
  {octets : Bytes} {turn : Turn} {deadline : Nat}

/-- Where the server is never told to stop, it is not told to stop later either. -/
theorem Reaches.unstopped (h : Reaches s p trace phase peer) (hp : p.Unstopped) :
    peer.Unstopped := by
  induction h with
  | start => exact hp
  | turn _ _ hr _ _ ih => exact hr ▸ ih.read _

/-- What octets bring about serves the head that is due. -/
theorem acts_of_read (hphase : ∀ ending, phase ≠ .ended ending)
    (hr : peer.read (patience phase) = r) (hinput : input? r.result = some (.octets octets))
    (hturn : step s r.peer.now r.peer.isStopping phase (.octets octets) = turn) :
    Acts s r.peer.now (phase.due? s r.peer.now) turn.actions turn.phase :=
  hturn ▸ acts_step hphase (Peer.ne_nil_of_read hr (input?_eq_octets hinput))

/-- A read brings octets by the time at which the head is due that they belong to. -/
theorem now_le_due (hunstopped : peer.Unstopped)
    (hnow : ∀ deadline, (patience phase).deadline = some deadline → peer.now ≤ deadline)
    (hr : peer.read (patience phase) = r) (hinput : input? r.result = some (.octets octets))
    (hdue : phase.due? s r.peer.now = some deadline) : r.peer.now ≤ deadline := by
  subst hr
  have hread := input?_eq_octets hinput
  have hle : (patience phase).deadline = some deadline →
      (peer.read (patience phase)).peer.now ≤ deadline :=
    fun hdeadline => hunstopped.now_le_read hdeadline (hnow deadline hdeadline) hread
  cases phase with
  | idle first deadline' =>
    cases first with
    | true => exact hle hdue
    | false => exact Option.some.inj hdue ▸ Nat.le_add_right _ _
  | head deadline' buffer => exact hle hdue
  | body | ended => cases hdue

/-- What the beginning of the octets brings about that a read brings leads to a wait up to a
deadline that has not passed. -/
theorem now_le_step {octets' : Bytes} (hunstopped : peer.Unstopped)
    (hnow : ∀ deadline, (patience phase).deadline = some deadline → peer.now ≤ deadline)
    (hphase : ∀ ending, phase ≠ .ended ending)
    (hr : peer.read (patience phase) = r) (hinput : input? r.result = some (.octets octets))
    (hne : octets' ≠ [])
    (hturn : step s r.peer.now r.peer.isStopping phase (.octets octets') = turn) :
    ∀ deadline, (patience turn.phase).deadline = some deadline → r.peer.now ≤ deadline := by
  intro deadline hdeadline
  have hacts : Acts s r.peer.now (phase.due? s r.peer.now) turn.actions turn.phase :=
    hturn ▸ acts_step hphase hne
  cases hnext : turn.phase with
  | idle first deadline' =>
    rw [hnext] at hacts hdeadline
    obtain ⟨-, rfl, -⟩ := hacts.idle_cases
    exact Option.some.inj hdeadline ▸ Nat.le_add_right _ _
  | head deadline' buffer =>
    rw [hnext] at hacts hdeadline
    cases hdeadline
    obtain ⟨-, ⟨-, hdue⟩ | ⟨rfl, -⟩⟩ := hacts.head_cases
    · exact now_le_due hunstopped hnow hr hinput hdue
    · exact Nat.le_add_right _ _
  | body | ended =>
    rw [hnext] at hdeadline
    cases hdeadline

/-- A run waits up to deadlines that have not passed. -/
theorem Reaches.now_le (h : Reaches s p trace phase peer) (hp : p.Unstopped) :
    ∀ deadline, (patience phase).deadline = some deadline → peer.now ≤ deadline := by
  induction h with
  | start =>
    intro deadline hdeadline
    exact Option.some.inj hdeadline ▸ Nat.le_add_right _ _
  | @turn trace phase peer r octets turn h hphase hr hinput hturn ih =>
    have hne := Peer.ne_nil_of_read hr (input?_eq_octets hinput)
    exact now_le_step (h.unstopped hp) ih hphase hr hinput hne hturn

/-! ### When a head is due -/

/-- The first octet is awaited up to the headers timeout from the start, or up to the keep-alive
timeout from the response before. -/
theorem Reaches.idle_cases {first : Bool} (h : Reaches s p trace (.idle first deadline) peer) :
    (first = true ∧ trace = [] ∧ deadline = p.now + s.headersTimeout) ∨
      first = false ∧ ∃ before time octets, Response.KeepsOpen octets ∧
        trace = before ++ [⟨time, .sent octets⟩] ∧ deadline = time + s.keepAliveTimeout := by
  generalize hidle : Phase.idle first deadline = phase at h
  cases h with
  | start =>
    cases hidle
    exact .inl ⟨rfl, rfl, rfl⟩
  | @turn trace phase peer r octets turn h hphase hr hinput hturn =>
    have hacts := acts_of_read hphase hr hinput hturn
    rw [← hidle] at hacts
    obtain ⟨rfl, rfl, front, octets', hopen, hactions⟩ := hacts.idle_cases
    refine .inr ⟨rfl, trace ++ (r.trace ++ shown r.peer.now front), _, octets', hopen, ?_, rfl⟩
    rw [hactions, shown_append, List.append_assoc, List.append_assoc]
    rfl

/-- Octets of a head that is due by a time were read. -/
theorem headDue_of_read (h : Reaches s p trace phase peer)
    (hhead : ∀ buffer, phase = .head deadline buffer → HeadDue s p trace deadline)
    (hr : peer.read (patience phase) = r) (hinput : input? r.result = some (.octets octets))
    (hdue : phase.due? s r.peer.now = some deadline) : HeadDue s p (trace ++ r.trace) deadline := by
  have hread := input?_eq_octets hinput
  cases phase with
  | idle first deadline' =>
    cases first with
    | true =>
      obtain ⟨-, -, rfl⟩ | ⟨hfirst, -⟩ := h.idle_cases
      · exact Option.some.inj hdue ▸ .first h hr hread
      · cases hfirst
    | false => exact Option.some.inj hdue ▸ .later h hr hread
  | head deadline' buffer =>
    cases hdue
    exact .more h (hhead buffer rfl) hr hread
  | body | ended => cases hdue

/-- The rest of a head is awaited up to the time at which it is due. -/
theorem Reaches.headDue {buffer : Bytes} (h : Reaches s p trace (.head deadline buffer) peer) :
    buffer ≠ [] ∧ HeadDue s p trace deadline := by
  generalize hhead : Phase.head deadline buffer = phase at h
  induction h generalizing buffer with
  | start => cases hhead
  | @turn trace phase peer r octets turn h hphase hr hinput hturn ih =>
    have hacts := acts_of_read hphase hr hinput hturn
    rw [← hhead] at hacts
    obtain ⟨hne, ⟨hactions, hdue⟩ | ⟨rfl, front, octets', hopen, hactions⟩⟩ := hacts.head_cases
    · refine ⟨hne, ?_⟩
      rw [hactions, shown, List.map_nil, List.append_nil]
      exact headDue_of_read h (fun buffer hphase => (ih hphase.symm).2) hr hinput hdue
    · refine ⟨hne, ?_⟩
      rw [hactions, shown_append, ← List.append_assoc, ← List.append_assoc]
      exact .left hopen

/-- The head that is due is one whose first octets are left, or one of which octets were read. -/
theorem HeadDue.cases (h : HeadDue s p trace deadline) :
    (∃ before time octets, Response.KeepsOpen octets ∧ trace = before ++ [⟨time, .sent octets⟩] ∧
      deadline = time + s.headersTimeout) ∨
    ∃ before phase peer octets, Reaches s p before phase peer ∧
      (peer.read (patience phase)).result = .ok (.octets octets) ∧
        trace = before ++ (peer.read (patience phase)).trace ∧
          phase.due? s (peer.read (patience phase)).peer.now = some deadline := by
  cases h with
  | @first trace deadline peer r octets h hr hread =>
    obtain ⟨-, -, rfl⟩ | ⟨hfirst, -⟩ := h.idle_cases
    · exact .inr ⟨trace, _, peer, octets, h, hr ▸ hread, hr ▸ rfl, rfl⟩
    · cases hfirst
  | @later trace deadline peer r octets h hr hread =>
    exact .inr ⟨trace, _, peer, octets, h, hr ▸ hread, hr ▸ rfl, hr ▸ rfl⟩
  | @more trace deadline buffer peer r octets h _ hr hread =>
    exact .inr ⟨trace, _, peer, octets, h, hr ▸ hread, hr ▸ rfl, rfl⟩
  | @left trace time octets hopen => exact .inl ⟨trace, time, octets, hopen, rfl, rfl⟩

/-- A trace does not end both with a response and with a read of octets. -/
theorem append_sent_ne {before before' : Trace} {time : Nat} {octets' : Bytes}
    {patience : Patience} (hread : (peer.read patience).result = .ok (.octets octets')) :
    before ++ [⟨time, .sent octets⟩] ≠ before' ++ (peer.read patience).trace := by
  intro heq
  obtain hnil | ⟨front, stamped, htrace⟩ := List.eq_nil_or_concat (peer.read patience).trace
  · exact Peer.trace_read_ne_nil hread hnil
  rw [List.concat_eq_append] at htrace
  rw [htrace, ← List.append_assoc] at heq
  obtain ⟨-, hlast⟩ := List.append_inj' heq rfl
  have hmem : ⟨time, .sent octets⟩ ∈ (peer.read patience).trace := by
    rw [htrace, (List.cons.inj hlast).1]
    exact List.mem_append_cons_self
  cases Peer.isOfPeer_of_mem_read hmem

/-- Two waits with the same trace after their reads are one. -/
theorem Reaches.eq_of_append_read_eq {trace' : Trace} {phase' : Phase} {peer' : Peer}
    {octets' : Bytes} (h : Reaches s p trace phase peer) (h' : Reaches s p trace' phase' peer')
    (hread : (peer.read (patience phase)).result = .ok (.octets octets))
    (hread' : (peer'.read (patience phase')).result = .ok (.octets octets'))
    (heq : trace ++ (peer.read (patience phase)).trace =
      trace' ++ (peer'.read (patience phase')).trace) :
    phase = phase' ∧ peer = peer' := by
  obtain ⟨-, hphase, hpeer⟩ | hprefix | hprefix := h.eq_or_isPrefix h'
  · exact ⟨hphase, hpeer⟩
  · rw [heq] at hprefix
    have hlength := hprefix.length_le
    rw [List.length_append] at hlength
    exact absurd (List.eq_nil_of_length_eq_zero (by omega)) (Peer.trace_read_ne_nil hread')
  · rw [← heq] at hprefix
    have hlength := hprefix.length_le
    rw [List.length_append] at hlength
    exact absurd (List.eq_nil_of_length_eq_zero (by omega)) (Peer.trace_read_ne_nil hread)

/-- A head is due by one time. -/
theorem HeadDue.unique {deadline' : Nat} (h : HeadDue s p trace deadline)
    (h' : HeadDue s p trace deadline') : deadline = deadline' := by
  obtain ⟨before, time, octets, -, htrace, rfl⟩ | ⟨before, phase, peer, octets, h, hread, htrace,
    hdue⟩ := h.cases <;>
  obtain ⟨before', time', octets', -, htrace', rfl⟩ | ⟨before', phase', peer', octets', h',
    hread', htrace', hdue'⟩ := h'.cases
  · obtain ⟨-, hlast⟩ := List.append_inj' (htrace.symm.trans htrace') rfl
    cases hlast
    rfl
  · exact absurd (htrace.symm.trans htrace') (append_sent_ne hread')
  · exact absurd (htrace'.symm.trans htrace) (append_sent_ne hread)
  · obtain ⟨rfl, rfl⟩ := h.eq_of_append_read_eq h' hread hread' (htrace.symm.trans htrace')
    exact Option.some.inj (hdue.symm.trans hdue')

/-- No head is accepted after the time at which it is due. -/
theorem Does.accepted {before : Trace} {time : Nat} {method target : String} (hp : p.Unstopped)
    (h : Does s p before ⟨time, .logged (.request method target)⟩) :
    ∃ deadline, HeadDue s p before deadline ∧ time ≤ deadline := by
  generalize hstamped : (⟨time, .logged (.request method target)⟩ : Stamped) = stamped at h
  cases h with
  | @turn trace phase peer r input turn front back action h hphase hr hinput hturn hactions =>
    obtain ⟨rfl, hevent⟩ := Stamped.mk.inj hstamped
    obtain rfl : .log (.request method target) = action := by
      cases action with
      | log notice => exact congrArg Action.log (Event.logged.inj hevent)
      | send | close => cases hevent
    by_cases hoctets : ∃ octets, input = .octets octets
    · obtain ⟨octets, rfl⟩ := hoctets
      obtain ⟨rfl, deadline, hdue⟩ | ⟨front, octets', hopen, rfl⟩ :=
        (acts_of_read hphase hr hinput hturn).accept_cases hactions rfl
      · refine ⟨deadline, ?_, now_le_due (h.unstopped hp) (h.now_le hp) hr hinput hdue⟩
        rw [shown, List.map_nil, List.append_nil]
        refine headDue_of_read h (fun buffer hhead => ?_) hr hinput hdue
        subst hhead
        exact h.headDue.2
      · refine ⟨r.peer.now + s.headersTimeout, ?_, Nat.le_add_right _ _⟩
        rw [shown_append, ← List.append_assoc, ← List.append_assoc]
        exact .left hopen
    · -- nothing else makes the connection accept a head
      have hmem : .log (.request method target) ∈ turn.actions :=
        hactions ▸ List.mem_append_cons_self
      rw [← hturn] at hmem
      obtain ⟨notice, hlog, hnot⟩ | ⟨hnot, -⟩ :=
        action_cases_of_not_octets (fun octets h => hoctets ⟨octets, h⟩) hmem
      · cases hlog
        exact absurd rfl hnot
      · exact absurd rfl (hnot _)

/-! ### Silence -/

/-- If nothing arrives by the deadline, the run ends with what is done then. -/
theorem Reaches.run_of_silent (h : Reaches s p trace phase peer)
    (hphase : ∀ ending, phase ≠ .ended ending)
    (hread : (peer.read (patience phase)).Silent deadline) :
    ∃ stopping, run s none p =
      { trace := trace ++ ((peer.read (patience phase)).trace ++
          shown deadline (step s deadline stopping phase .deadline).actions)
        ending := ending? (step s deadline stopping phase .deadline).phase, time := deadline } := by
  obtain ⟨sends, hrun⟩ := h.run_eq
  have hinput : input? (peer.read (patience phase)).result = some .deadline := by
    rw [hread.result_eq]
    rfl
  obtain ⟨htook, hshown⟩ := take_none s phase sends (peer.read (patience phase)).peer .deadline
  refine ⟨(peer.read (patience phase)).peer.isStopping, ?_⟩
  rw [hrun, runFrom_of_input hphase rfl hinput nofun, htook, hshown, hread.now_eq]
  rfl

/-- If nothing arrives for a head by its deadline, a timeout is reported then, and the run ends. -/
theorem Reaches.run_of_silent_head {buffer : Bytes}
    (h : Reaches s p trace (.head deadline buffer) peer)
    (hread : (peer.read (patience (.head deadline buffer))).Silent deadline) :
    run s none p =
      { trace := trace ++ ((peer.read (patience (.head deadline buffer))).trace ++
          [⟨deadline, .logged .headTimeout⟩, ⟨deadline, .sent timeoutResponse⟩,
            ⟨deadline, .closed⟩])
        ending := some .closed, time := deadline } := by
  obtain ⟨stopping, hrun⟩ := h.run_of_silent nofun hread
  exact hrun

/-- What comes of a read is part of the run. -/
theorem Reaches.exists_trace_eq {input : Input} (h : Reaches s p trace phase peer)
    (hphase : ∀ ending, phase ≠ .ended ending) (hr : peer.read (patience phase) = r)
    (hinput : input? r.result = some input)
    (hturn : step s r.peer.now r.peer.isStopping phase input = turn) :
    ∃ after, (run s none p).trace =
      trace ++ (r.trace ++ (shown r.peer.now turn.actions ++ after)) := by
  obtain ⟨sends, hrun⟩ := h.run_eq
  have hshown := (take_none s phase sends r.peer input).2
  rw [hturn] at hshown
  by_cases hoctets : ∃ octets, input = .octets octets
  · obtain ⟨octets, rfl⟩ := hoctets
    rw [hrun, runFrom_of_octets hphase hr hinput, hshown, Run.after, Run.after, List.append_assoc]
    exact ⟨_, rfl⟩
  · rw [hrun, runFrom_of_input hphase hr hinput fun octets h => hoctets ⟨octets, h⟩, hshown]
    exact ⟨[], by rw [List.append_nil]; rfl⟩

/-- A head that has begun is settled by its deadline, or a timeout is reported then. -/
theorem Reaches.settled_or_timeout {buffer : Bytes} (hp : p.Unstopped)
    (h : Reaches s p trace (.head deadline buffer) peer) :
    ∃ passed : Trace, passed.OnlyReceived ∧
      ((∃ time event after, time ≤ deadline ∧ settlesHead event ∧
        (run s none p).trace = trace ++ (passed ++ ⟨time, event⟩ :: after)) ∨
      run s none p =
        { trace := trace ++ (passed ++ [⟨deadline, .logged .headTimeout⟩,
            ⟨deadline, .sent timeoutResponse⟩, ⟨deadline, .closed⟩])
          ending := some .closed, time := deadline }) := by
  induction hn : peer.script.length using Nat.strongRecOn generalizing trace buffer peer with
  | ind n ih =>
    have hphase : ∀ ending, Phase.head deadline buffer ≠ .ended ending := nofun
    have hdeadline := deadline_patience_head deadline buffer
    generalize hr : peer.read (patience (.head deadline buffer)) = r
    obtain ⟨-, hsilent⟩ | ⟨time, arrival, hle, hdelivers⟩ :=
      (h.unstopped hp).read_cases hdeadline (h.now_le hp deadline hdeadline)
    · exact ⟨_, hsilent.trace_eq, .inr (h.run_of_silent_head hsilent)⟩
    rw [hr] at hdelivers
    obtain ⟨hresult, rfl, passed, event, htrace, hpassed, hshows⟩ := hdelivers
    cases arrival with
    | endOfInput | failure kind =>
      obtain ⟨after, hrun⟩ := h.exists_trace_eq hphase hr (congrArg input? hresult) rfl
      rw [htrace, List.append_assoc passed] at hrun
      exact ⟨passed, hpassed, .inl ⟨_, event, _, hle, hshows ▸ trivial, hrun⟩⟩
    | octets octets =>
      have hinput : input? r.result = some (.octets octets) := congrArg input? hresult
      have hreceived : r.trace.OnlyReceived :=
        htrace ▸ hpassed.append (List.forall_mem_singleton.2 hshows)
      obtain ⟨hactions, buffer', hnext⟩ | ⟨notice, rest, hactions, hnotice⟩ :=
        (acts_of_read hphase hr hinput rfl).due_cases
      · -- the head is still not complete
        have hturn := h.turn hphase hr hinput rfl
        rw [hactions, hnext] at hturn
        obtain ⟨passed', hpassed', hcases⟩ :=
          ih _ (hn ▸ hr ▸ Peer.length_read_script_lt (hr.symm ▸ hresult)) hturn rfl
        refine ⟨r.trace ++ passed', hreceived.append hpassed', ?_⟩
        simpa only [shown, List.map_nil, List.append_nil, List.append_assoc] using hcases
      · obtain ⟨after, hrun⟩ := h.exists_trace_eq hphase hr hinput rfl
        rw [hactions] at hrun
        refine ⟨r.trace, hreceived, .inl ⟨_, .logged notice, _, hle, ?_, hrun⟩⟩
        rcases hnotice with hrequest | ⟨error, rfl⟩
        · cases notice <;> trivial
        · trivial

/-- Only the log comes before the response in a rejection. -/
theorem front_of_reject {notice : Notice} {status : Status} {message : String}
    {front back : List Action}
    (h : (reject notice status message).actions = front ++ .send octets :: back) :
    front = [.log notice] := by
  cases front with
  | nil => cases (List.cons.inj h).1
  | cons action front =>
    obtain ⟨rfl, hrest⟩ := List.cons.inj h
    cases front with
    | nil => rfl
    | cons action front =>
      have hclose := (List.cons.inj hrest).2
      cases front with
      | nil => cases (List.cons.inj hclose).1
      | cons action front =>
        exact absurd (List.cons.inj hclose).2.symm
          (List.append_ne_nil_of_right_ne_nil _ (List.cons_ne_nil _ _))

/-- A timeout is reported only if nothing arrives for a head that has begun, at its deadline. -/
theorem Does.timeout_cases {before : Trace} {time : Nat} (hp : p.Unstopped)
    (htimeout : Response.IsTimeout octets) (h : Does s p before ⟨time, .sent octets⟩) :
    ∃ (trace : Trace) (buffer : Bytes) (peer : Peer),
      Reaches s p trace (.head time buffer) peer ∧
        (∀ time', peer.arrival? = some time' → time < time') ∧
          (peer.read (patience (.head time buffer))).Silent time ∧
            before = trace ++ ((peer.read (patience (.head time buffer))).trace ++
              [⟨time, .logged .headTimeout⟩]) := by
  generalize hstamped : (⟨time, .sent octets⟩ : Stamped) = stamped at h
  cases h with
  | @turn trace phase peer r input turn front back action h hphase hr hinput hturn hactions =>
    obtain ⟨rfl, hevent⟩ := Stamped.mk.inj hstamped
    obtain rfl : .send octets = action := by
      cases action with
      | send octets => exact congrArg Action.send (Event.sent.inj hevent)
      | log | close => cases hevent
    have hmem : .send octets ∈ turn.actions := hactions ▸ List.mem_append_cons_self
    by_cases hoctets : ∃ octets, input = .octets octets
    · obtain ⟨octets, rfl⟩ := hoctets
      exact absurd htimeout ((acts_of_read hphase hr hinput hturn).not_isTimeout hmem)
    rw [← hturn] at hmem
    obtain ⟨notice, hlog, -⟩ | ⟨-, rfl, deadline, buffer, rfl⟩ :=
      action_cases_of_not_octets (fun octets h => hoctets ⟨octets, h⟩) hmem
    · cases hlog
    subst hr
    have hdeadline := deadline_patience_head deadline buffer
    obtain ⟨hsilent, hread⟩ | ⟨time, arrival, -, hdelivers⟩ :=
      (h.unstopped hp).read_cases hdeadline (h.now_le hp deadline hdeadline)
    · obtain rfl := front_of_reject ((congrArg Turn.actions hturn).trans hactions)
      rw [hread.now_eq]
      exact ⟨trace, buffer, peer, h, hsilent, hread, rfl⟩
    · rw [hdelivers.result_eq] at hinput
      cases arrival <;> cases hinput

/-! ### Whole runs -/

/-- **Deadlines are kept.** Unless it is told to stop, every run of every peer is timely. -/
theorem timely_run (hp : p.Unstopped) : Timely s p where
  idle h := h.idle_cases
  head h := h.headDue
  due_unique h h' := h.unique h'
  accepted htrace := (does_of_run htrace nofun).accepted hp
  punctual := by
    intro trace phase peer deadline time h hdeadline harrival hle
    obtain ⟨arrival, hdelivers⟩ := (h.unstopped hp).delivers_read hdeadline harrival hle
    refine ⟨arrival, _, rfl, hdelivers, ?_⟩
    rintro octets turn rfl hturn
    have hphase : ∀ ending, phase ≠ .ended ending := by
      rintro ending rfl
      cases hdeadline
    have hnext := h.turn hphase rfl (congrArg input? hdelivers.result_eq)
      (hdelivers.now_eq.symm ▸ hturn)
    rwa [hdelivers.now_eq] at hnext
  silence := by
    intro trace first deadline peer h hsilent
    have hdeadline := deadline_patience_idle first deadline
    have hread := (h.unstopped hp).silent_read hdeadline (h.now_le hp deadline hdeadline) hsilent
    obtain ⟨stopping, hrun⟩ := h.run_of_silent nofun hread
    exact ⟨_, hread.trace_eq, hrun⟩
  timeout h := h.settled_or_timeout hp
  reported := by
    intro before after time octets htrace htimeout
    obtain ⟨trace, buffer, peer, h, hsilent, hread, rfl⟩ :=
      (does_of_run htrace nofun).timeout_cases hp htimeout
    rw [h.run_of_silent_head hread, List.append_assoc, List.append_assoc] at htrace
    have hrest := List.append_cancel_left (List.append_cancel_left htrace)
    exact ⟨trace, buffer, peer, _, h, hsilent, hread.trace_eq, rfl,
      (List.cons.inj (List.cons.inj hrest).2).2.symm⟩

/-- A peer that connects and hangs. -/
def hanging : Peer := { script := [.hang] }

/-- A peer that completes its first head at the time at which it is due, begins a second one, and
hangs. -/
def tardy : Peer where
  script := [.wait 4000, .send (Utf8.encode "GET / "), .wait 6000,
    .send (Utf8.encode "HTTP/1.1\r\n\r\n"), .wait 5000, .send (Utf8.encode "GET"), .hang]

/-- That peer after some of its moves. -/
def tardyAt (moves now : Nat) : Peer :=
  { script := tardy.script.drop moves, index := moves, now }

/-- The reads of its first head. -/
def tardyHead : Trace := [⟨4000, .received 1⟩, ⟨10000, .received 3⟩]

/-- What happens in answer to that head. -/
def tardyAnswer : List Action :=
  [.log (.request "GET" "/"), .send ((Response.ok (Utf8.encode "hello undefined\n")).encode
    (.keepAlive (.ofMilliseconds 10000)) false)]

/-- What happens up to the read in which its second head begins. -/
def tardyTrace : Trace := tardyHead ++ shown 10000 tardyAnswer ++ [⟨15000, .received 5⟩]

/-- The rest of its first head is awaited up to the headers timeout from the start. -/
theorem reaches_tardy_head :
    Reaches {} tardy [⟨4000, .received 1⟩] (.head 10000 (Utf8.encode "GET / "))
      (tardyAt 2 4000) := by
  have hturn : step {} 4000 false (.idle true 10000) (.octets (Utf8.encode "GET / ")) =
      ⟨[], .head 10000 (Utf8.encode "GET / ")⟩ := by decide +kernel
  have hstart : Reaches {} tardy [] (.idle true 10000) tardy := .start
  exact hstart.turn nofun rfl rfl hturn

/-- Once its first head is answered, it has the headers timeout from the first octet of the second
one. -/
theorem reaches_tardy_again
    (h : Reaches {} tardy (tardyHead ++ shown 10000 tardyAnswer) (.idle false 20000)
      (tardyAt 4 10000)) :
    Reaches {} tardy tardyTrace (.head 25000 (Utf8.encode "GET")) (tardyAt 6 15000) := by
  have hturn : step {} 15000 false (.idle false 20000) (.octets (Utf8.encode "GET")) =
      ⟨[], .head 25000 (Utf8.encode "GET")⟩ := by decide +kernel
  exact h.turn nofun rfl rfl hturn

/-- A peer that hangs at once is left without a word. One that completes its head at the time at
which it is due is answered, and the head in which it hangs then is reported as late, for want of
anything more. -/
theorem timely_run_hanging :
    (hanging.Unstopped ∧ ∃ passed : Trace, passed.OnlyReceived ∧
      run {} none hanging =
        { trace := passed ++ [⟨10000, .logged .idleTimeout⟩], ending := some .closed
          time := 10000 }) ∧
    tardy.Unstopped ∧
      ((∃ deadline, HeadDue {} tardy tardyHead deadline ∧ 10000 ≤ deadline) ∧
        ∀ deadline, HeadDue {} tardy tardyHead deadline → deadline = 10000) ∧
      Reaches {} tardy (tardyHead ++ shown 10000 tardyAnswer) (.idle false 20000)
        (tardyAt 4 10000) ∧
      (HeadDue {} tardy tardyTrace 25000 ∧
        run {} none tardy =
          { trace := tardyTrace ++ [⟨25000, .logged .headTimeout⟩, ⟨25000, .sent timeoutResponse⟩,
              ⟨25000, .closed⟩]
            ending := some .closed, time := 25000 }) ∧
      ∃ (trace : Trace) (buffer : Bytes) (peer : Peer),
        Reaches {} tardy trace (.head 25000 buffer) peer ∧
          ∀ time, peer.arrival? = some time → 25000 < time := by
  have hhanging : hanging.Unstopped := ⟨rfl, by decide⟩
  have htardy : tardy.Unstopped := ⟨rfl, by decide +kernel⟩
  have hrun : (run {} none tardy).trace = tardyTrace ++ [⟨25000, .logged .headTimeout⟩,
      ⟨25000, .sent timeoutResponse⟩, ⟨25000, .closed⟩] := by decide +kernel
  -- the rest of the first head arrives at the time of the deadline, and the head is accepted
  have hidle : Reaches {} tardy (tardyHead ++ shown 10000 tardyAnswer) (.idle false 20000)
      (tardyAt 4 10000) := by
    obtain ⟨arrival, r, rfl, hdelivers, hnext⟩ :=
      (timely_run htardy).punctual reaches_tardy_head rfl rfl (Nat.le_refl 10000)
    obtain rfl := Except.ok.inj hdelivers.result_eq
    have hturn : step {} 10000 false (.head 10000 (Utf8.encode "GET / "))
        (.octets (Utf8.encode "HTTP/1.1\r\n\r\n")) = ⟨tardyAnswer, .idle false 20000⟩ := by
      decide +kernel
    exact hnext _ _ rfl hturn
  have hagain := reaches_tardy_again hidle
  refine ⟨⟨hhanging, (timely_run hhanging).silence .start nofun⟩, htardy, ⟨?_, ?_⟩, hidle,
    ⟨?_, ?_⟩, ?_⟩
  · exact (timely_run htardy).accepted hrun
  · intro deadline hdue
    have hmore : HeadDue {} tardy tardyHead 10000 :=
      .more reaches_tardy_head ((timely_run htardy).head reaches_tardy_head).2 rfl rfl
    exact (timely_run htardy).due_unique hdue hmore
  · exact ((timely_run htardy).head hagain).2
  · obtain ⟨passed, -, ⟨time, event, after, -, hsettles, htrace⟩ | hend⟩ :=
      (timely_run htardy).timeout hagain
    · -- the log does not say that the second head was settled
      have hmem : ⟨time, event⟩ ∈ passed ++ ⟨time, event⟩ :: after := List.mem_append_cons_self
      rw [← List.append_cancel_left (hrun.symm.trans htrace)] at hmem
      simp only [List.mem_cons, Stamped.mk.injEq, List.not_mem_nil, or_false] at hmem
      obtain ⟨-, rfl⟩ | ⟨-, rfl⟩ | ⟨-, rfl⟩ := hmem <;> exact hsettles.elim
    · have htrace := List.append_cancel_left (hrun.symm.trans (congrArg Run.trace hend))
      rw [hend, List.self_eq_append_left.1 htrace]
      rfl
  · have hreport : (run {} none tardy).trace = (tardyTrace ++ [⟨25000, .logged .headTimeout⟩]) ++
        ⟨25000, .sent timeoutResponse⟩ :: [⟨25000, .closed⟩] := hrun
    obtain ⟨trace, buffer, peer, -, hreaches, hlate, -⟩ :=
      (timely_run htardy).reported hreport ⟨_, _, _, rfl, rfl⟩
    exact ⟨trace, buffer, peer, hreaches, hlate⟩

end HttpEcho.Session
