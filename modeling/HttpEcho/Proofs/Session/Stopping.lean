import HttpEcho.Proofs.Connection.Stopping
import HttpEcho.Proofs.Session.Conversation
import HttpEcho.Proofs.Session.Deadlines
import HttpEcho.Proofs.Session.Failures
import HttpEcho.Proofs.Stops

/-!
# Stopping a connection

A stop of the server ends a run at once if the run waits for the first octet of a request. Otherwise
the request under way is still served, and then the run is over: what is sent after the stop is at
most one final response, which closes, with a go-ahead before it or without one, and no head is
accepted after the one of that request (`Session.windsDown_run`).

The stop matters where a response would keep the connection open (`Session.Does.not_told`). As the
responses are those of a conversation, little is left to be sent after it; and as a head is accepted
only if all earlier requests were answered (`Session.not_pending_of_accepted`), little is left to be
served.
-/

namespace HttpEcho

open Connection
open Response (KeepsOpen Closes)

/-- Whether an event says that a head was accepted. -/
def Event.isAccept : Event → Bool
  | .logged notice => notice.isRequest
  | _ => false

/-- How many heads were accepted. -/
def Trace.accepted (trace : Trace) : Nat := trace.countP (·.event.isAccept)

/-- A head was accepted, and no response that keeps the connection open was sent since. -/
def Trace.Pending (trace : Trace) : Prop :=
  ∃ before stamped after, trace = before ++ stamped :: after ∧ stamped.event.isAccept ∧
    ∀ octets ∈ Trace.sends after, ¬ KeepsOpen octets

/-- By the time at which a trace has happened, the server has been told to stop: before the start,
by the peer, or from elsewhere. -/
def Peer.Told (p : Peer) (trace : Trace) (time : Nat) : Prop :=
  p.stopped ∨ trace.asksStop ∨ ∃ t, p.stopAt = some t ∧ t ≤ time

namespace Session

variable {s : Settings} {p peer : Peer} {trace before after : Trace} {phase : Phase}
  {stamped : Stamped} {time deadline : Nat} {octets : Bytes}

/-! ### What is known of a stop -/

theorem asksStop_shown (now : Nat) (actions : List Action) :
    (shown now actions).asksStop = false := by
  refine List.any_eq_false.2 fun stamped hmem hasked => ?_
  obtain ⟨action, -, rfl⟩ := List.mem_map.1 hmem
  cases action <;> cases of_decide_eq_true hasked

/-- A stop is not taken back. -/
theorem told_append (h : p.Told before time) (after : Trace) : p.Told (before ++ after) time := by
  obtain hstart | hasked | helsewhere := h
  · exact .inl hstart
  · refine .inr (.inl ?_)
    rw [Trace.asksStop_append, hasked, Bool.true_or]
  · exact .inr (.inr helsewhere)

/-- At a wait it is known whether a stop was asked for, and when it comes from elsewhere. -/
theorem Reaches.stop_eq (h : Reaches s p trace phase peer) :
    peer.stopped = (p.stopped || trace.asksStop) ∧ peer.stopAt = p.stopAt := by
  induction h with
  | start => exact ⟨(Bool.or_false _).symm, rfl⟩
  | @turn trace phase peer r octets turn _ _ hr _ _ ih =>
    obtain ⟨hstopped, hstopAt⟩ := ih
    have hread := peer.stopped_read (patience phase)
    rw [hr] at hread
    refine ⟨?_, ?_⟩
    · rw [hread, hstopped, Trace.asksStop_append, Trace.asksStop_append, asksStop_shown,
        Bool.or_false, Bool.or_assoc]
    · rw [← hr, peer.stopAt_read, hstopAt]

/-- After a stop the connection knows of it when something comes that it waits for. -/
theorem Reaches.isStopping_read (h : Reaches s p trace phase peer) {r : Reading}
    (hr : peer.read (patience phase) = r) (htold : p.Told (trace ++ r.trace) r.peer.now) :
    r.peer.isStopping = true := by
  obtain ⟨hstopped, hstopAt⟩ := h.stop_eq
  have hread : r.peer.stopped = (p.stopped || Trace.asksStop (trace ++ r.trace)) := by
    rw [Trace.asksStop_append, ← Bool.or_assoc, ← hstopped, ← hr]
    exact peer.stopped_read (patience phase)
  have hread' : r.peer.stopAt = p.stopAt := by
    rw [← hstopAt, ← hr]
    exact peer.stopAt_read (patience phase)
  rw [Peer.isStopping, Bool.or_eq_true, hread, hread', Bool.or_eq_true]
  obtain hstart | hasked | ⟨t, ht, hle⟩ := htold
  · exact .inl (.inl hstart)
  · exact .inl (.inr hasked)
  · refine .inr ?_
    rw [ht, Option.any_some]
    exact decide_eq_true hle

/-- **A response that keeps the connection open** is sent only before a stop. -/
theorem Does.not_told (h : Does s p before ⟨time, .sent octets⟩) (hopen : KeepsOpen octets) :
    ¬ p.Told before time := by
  generalize hstamped : (⟨time, .sent octets⟩ : Stamped) = stamped at h
  obtain @⟨trace, phase, peer, r, input, turn, front, back, action, h, hphase, hr, hinput, hturn,
    hactions⟩ := h
  obtain ⟨rfl, hevent⟩ := Stamped.mk.inj hstamped
  obtain rfl : .send octets = action := by
    cases action with
    | send octets => exact congrArg Action.send (Event.sent.inj hevent)
    | log | close => cases hevent
  intro htold
  -- the stop is not in what the turn has done so far
  have hread : p.Told (trace ++ r.trace) r.peer.now := by
    unfold Peer.Told at htold ⊢
    rwa [← List.append_assoc, Trace.asksStop_append _ (shown _ _), asksStop_shown,
      Bool.or_false] at htold
  rw [h.isStopping_read hr hread] at hturn
  have hmem : .send octets ∈ (step s r.peer.now true phase input).actions :=
    hturn ▸ hactions ▸ List.mem_append_cons_self
  exact (sendsToClose_step phase input).not_keepsOpen hmem hopen

/-! ### What is left of a conversation -/

/-- Without a response that keeps the connection open, what is sent in a conversation is its end. -/
theorem sends_cases_of_conversation {sent sends : List Bytes} (h : Conversation sent)
    (hsends : sends <+: sent) (hclosing : ∀ octets ∈ sends, ¬ KeepsOpen octets) :
    ∃ octets, Closes octets ∧ (sends <+: [octets] ∨ sends <+: [continueResponse, octets]) := by
  have hnone : ∃ octets, Closes octets := ⟨_, .ok [], false, rfl⟩
  cases h with
  | nil =>
    obtain ⟨octets, hcloses⟩ := hnone
    exact ⟨octets, hcloses, .inl (hsends.trans List.nil_prefix)⟩
  | respond hopen =>
    obtain ⟨octets, hcloses⟩ := hnone
    obtain rfl | ⟨_, rfl, -⟩ := List.prefix_cons_iff.1 hsends
    · exact ⟨octets, hcloses, .inl List.nil_prefix⟩
    · exact absurd hopen (hclosing _ List.mem_cons_self)
  | goAheadRespond hopen =>
    obtain ⟨octets, hcloses⟩ := hnone
    obtain rfl | ⟨more, rfl, hmore⟩ := List.prefix_cons_iff.1 hsends
    · exact ⟨octets, hcloses, .inl List.nil_prefix⟩
    obtain rfl | ⟨_, rfl, -⟩ := List.prefix_cons_iff.1 hmore
    · exact ⟨octets, hcloses, .inr (List.cons_prefix_cons.2 ⟨rfl, List.nil_prefix⟩)⟩
    · exact absurd hopen (hclosing _ (List.mem_cons_of_mem _ List.mem_cons_self))
  | close hcloses => exact ⟨_, hcloses, .inl hsends⟩
  | goAheadClose hcloses => exact ⟨_, hcloses, .inr hsends⟩

/-- So it is of what is still sent at any stage. -/
theorem sends_cases_of_completes {stage : Stage} {rest sends : List Bytes}
    (h : stage.Completes rest) (hsends : sends <+: rest)
    (hclosing : ∀ octets ∈ sends, ¬ KeepsOpen octets) :
    ∃ octets, Closes octets ∧ (sends <+: [octets] ∨ sends <+: [continueResponse, octets]) := by
  have hend : rest = [] → ∃ octets, Closes octets ∧
      (sends <+: [octets] ∨ sends <+: [continueResponse, octets]) := by
    rintro rfl
    exact ⟨_, ⟨.ok [], false, rfl⟩, .inl (hsends.trans List.nil_prefix)⟩
  match stage with
  | .going false => exact sends_cases_of_conversation h hsends hclosing
  | .going true =>
    -- the go-ahead was sent already
    have hgoAhead : ∀ octets ∈ continueResponse :: sends, ¬ KeepsOpen octets :=
      List.forall_mem_cons.2 ⟨fun hopen => hopen.ne_continueResponse rfl, hclosing⟩
    obtain ⟨octets, hcloses, hone | htwo⟩ :=
      sends_cases_of_conversation h (List.cons_prefix_cons.2 ⟨rfl, hsends⟩) hgoAhead
    · exact absurd (List.cons_prefix_cons.1 hone).1.symm hcloses.ne_continueResponse
    · exact ⟨octets, hcloses, .inl (List.cons_prefix_cons.1 htwo).2⟩
  | .parting _ | .done .. => exact hend h

/-! ### The end of a run -/

/-- A turn that ends the connection ends the run. -/
theorem Reaches.run_of_ended {r : Reading} {input : Input} {turn : Turn} {ending : Ending}
    (h : Reaches s p trace phase peer) (hphase : ∀ ending, phase ≠ .ended ending)
    (hr : peer.read (patience phase) = r) (hinput : input? r.result = some input)
    (hturn : step s r.peer.now r.peer.isStopping phase input = turn)
    (hended : turn.phase = .ended ending) :
    run s none p = { trace := trace ++ (r.trace ++ shown r.peer.now turn.actions)
                     ending := some ending, time := r.peer.now } := by
  obtain ⟨sends, hrun⟩ := h.run_eq
  obtain ⟨htook, hshown⟩ := take_none s phase sends r.peer input
  rw [hturn] at htook hshown
  rw [hrun, runFrom_of_ended hphase hr hinput (htook.trans hended), hshown]
  rfl

/-- After a response that closes only the closing is done, and the run is over. -/
theorem Does.run_of_closes (h : Does s p before ⟨time, .sent octets⟩) (hcloses : Closes octets) :
    ∃ closing : List Action, (∀ action ∈ closing, action.IsClosing) ∧
      run s none p = { trace := before ++ ⟨time, .sent octets⟩ :: shown time closing
                       ending := some .closed, time } := by
  generalize hstamped : (⟨time, .sent octets⟩ : Stamped) = stamped at h
  obtain @⟨trace, phase, peer, r, input, turn, front, back, action, h, hphase, hr, hinput, hturn,
    hactions⟩ := h
  obtain ⟨rfl, hevent⟩ := Stamped.mk.inj hstamped
  obtain rfl : .send octets = action := by
    cases action with
    | send octets => exact congrArg Action.send (Event.sent.inj hevent)
    | log | close => cases hevent
  have hclosing : (∀ action ∈ back, action.IsClosing) ∧ turn.phase = .ended .closed := by
    by_cases hoctets : ∃ octets, input = .octets octets
    · obtain ⟨octets', rfl⟩ := hoctets
      obtain hgoAhead | hopen | hclosing :=
        (acts_of_read hphase hr hinput hturn).sent_cases hactions
      · exact absurd hgoAhead hcloses.ne_continueResponse
      · exact absurd hcloses hopen.not_closes
      · exact hclosing
    · subst hturn
      exact sent_cases_of_not_octets (fun octets heq => hoctets ⟨octets, heq⟩) hactions
  refine ⟨back, hclosing.1, ?_⟩
  rw [h.run_of_ended hphase hr hinput hturn hclosing.2, hactions, shown_append]
  simp only [List.append_assoc]
  rfl

/-! ### Requests under way -/

/-- Nothing is pending right after a response that keeps the connection open. -/
theorem not_pending_of_sent (hopen : KeepsOpen octets) :
    ¬ Trace.Pending (before ++ [⟨time, .sent octets⟩]) := by
  rintro ⟨front, stamped, back, heq, haccept, hnone⟩
  obtain ⟨middle, rfl⟩ | ⟨middle, -, hlast⟩ := split_of_append_eq heq
  · rw [List.append_assoc, List.cons_append] at heq
    obtain ⟨-, rfl⟩ := List.cons.inj (List.append_cancel_left heq)
    refine hnone octets ?_ hopen
    rw [Trace.sends_append]
    exact List.mem_append_right _ List.mem_cons_self
  · have hmem : stamped ∈ [⟨time, .sent octets⟩] := hlast ▸ List.mem_append_cons_self
    rw [List.mem_singleton.1 hmem] at haccept
    cases haccept

/-- Nothing becomes pending if no head is accepted. -/
theorem not_pending_append (h : ¬ before.Pending)
    (hafter : ∀ stamped ∈ after, ¬ stamped.event.isAccept) : ¬ Trace.Pending (before ++ after) := by
  rintro ⟨front, stamped, back, heq, haccept, hnone⟩
  obtain ⟨middle, rfl⟩ | ⟨middle, -, hlast⟩ := split_of_append_eq heq
  · rw [List.append_assoc, List.cons_append] at heq
    obtain ⟨-, rfl⟩ := List.cons.inj (List.append_cancel_left heq)
    refine h ⟨front, stamped, middle, rfl, haccept, fun octets hmem => hnone octets ?_⟩
    rw [Trace.sends_append]
    exact List.mem_append_left _ hmem
  · exact hafter stamped (hlast ▸ List.mem_append_cons_self) haccept

/-- A request stays pending as long as no response is sent that keeps the connection open. -/
theorem pending_append (h : before.Pending)
    (hafter : ∀ octets ∈ after.sends, ¬ KeepsOpen octets) : Trace.Pending (before ++ after) := by
  obtain ⟨front, stamped, back, rfl, haccept, hnone⟩ := h
  refine ⟨front, stamped, back ++ after, List.append_assoc _ _ _, haccept, ?_⟩
  rw [Trace.sends_append]
  exact List.forall_mem_append.2 ⟨hnone, hafter⟩

/-- A read accepts no head. -/
theorem not_isAccept_of_mem_read {patience : Patience} :
    ∀ stamped ∈ (peer.read patience).trace, ¬ stamped.event.isAccept := by
  intro stamped hmem haccept
  have hpeer := Peer.isOfPeer_of_mem_read hmem
  generalize stamped.event = event at hpeer haccept
  cases event <;> first | cases haccept | cases hpeer

/-- Where a head is waited for, all requests before it were answered. -/
theorem Reaches.not_pending (h : Reaches s p trace phase peer) {now : Nat}
    (hdue : phase.due? s now = some deadline) : ¬ trace.Pending := by
  induction h generalizing now deadline with
  | start =>
    rintro ⟨front, stamped, back, heq, -⟩
    exact absurd heq.symm (List.append_ne_nil_of_right_ne_nil _ (List.cons_ne_nil _ _))
  | @turn trace phase peer r octets turn h hphase hr hinput hturn ih =>
    have hacts := acts_of_read hphase hr hinput hturn
    -- a turn that has sent a response leaves nothing pending
    have hsent : (∃ front octets, KeepsOpen octets ∧ turn.actions = front ++ [.send octets]) →
        ¬ Trace.Pending (trace ++ (r.trace ++ shown r.peer.now turn.actions)) := by
      rintro ⟨front, octets, hopen, hactions⟩
      rw [hactions, shown_append, ← List.append_assoc, ← List.append_assoc]
      exact not_pending_of_sent hopen
    cases hnext : turn.phase with
    | idle first deadline' =>
      rw [hnext] at hacts
      exact hsent hacts.idle_cases.2.2
    | head deadline' buffer =>
      rw [hnext] at hacts
      obtain ⟨-, ⟨hactions, hdue'⟩ | ⟨-, hresponse⟩⟩ := hacts.head_cases
      · rw [hactions, shown, List.map_nil, List.append_nil]
        exact not_pending_append (ih hdue') (hr ▸ not_isAccept_of_mem_read)
      · exact hsent hresponse
    | body exchange buffer | ended ending =>
      rw [hnext] at hdue
      cases hdue

/-- **A head is accepted** only after all requests before it were answered. -/
theorem Does.not_pending (h : Does s p before stamped) (haccept : stamped.event.isAccept) :
    ¬ before.Pending := by
  obtain @⟨trace, phase, peer, r, input, turn, front, back, action, h, hphase, hr, hinput, hturn,
    hactions⟩ := h
  obtain ⟨notice, rfl, hnotice⟩ : ∃ notice, action = .log notice ∧ notice.isRequest := by
    cases action with
    | log notice => exact ⟨notice, rfl, haccept⟩
    | send | close => cases haccept
  by_cases hoctets : ∃ octets, input = .octets octets
  · obtain ⟨octets, rfl⟩ := hoctets
    obtain ⟨rfl, deadline, hdue⟩ | ⟨front, octets', hopen, rfl⟩ :=
      (acts_of_read hphase hr hinput hturn).accept_cases hactions hnotice
    · rw [shown, List.map_nil, List.append_nil]
      exact not_pending_append (h.not_pending hdue) (hr ▸ not_isAccept_of_mem_read)
    · rw [shown_append, ← List.append_assoc, ← List.append_assoc]
      exact not_pending_of_sent hopen
  · -- nothing else makes the connection accept a head
    have hmem : .log notice ∈ (step s r.peer.now r.peer.isStopping phase input).actions :=
      hturn ▸ hactions ▸ List.mem_append_cons_self
    obtain ⟨_, ⟨⟩, hnot⟩ | ⟨hnot, -⟩ :=
      action_cases_of_not_octets (fun octets heq => hoctets ⟨octets, heq⟩) hmem
    · exact absurd hnotice hnot
    · exact absurd rfl (hnot notice)

/-! ### Runs in which sends fail -/

section Failing

variable {failure? : Option SendFailure} {middle : Trace}

/-- After a stop no response keeps the connection open. -/
theorem not_keepsOpen_of_told
    (htrace : (run s failure? p).trace = before ++ ⟨time, .sent octets⟩ :: after)
    (htold : p.Told before time) : ¬ KeepsOpen octets := by
  intro hopen
  obtain ⟨after', htrace'⟩ := exists_of_failing htrace nofun
  exact (does_of_run htrace' nofun).not_told hopen htold

/-- What was sent was sent at some time. -/
theorem exists_of_mem_sends (h : octets ∈ trace.sends) :
    ∃ front time back, trace = front ++ ⟨time, .sent octets⟩ :: back := by
  obtain ⟨event, hevent, hsent⟩ := List.mem_filterMap.1 h
  obtain ⟨⟨time, event⟩, hmem, rfl⟩ := List.mem_map.1 hevent
  cases event with
  | sent octets' =>
    obtain rfl := Option.some.inj hsent
    obtain ⟨front, back, htrace⟩ := List.append_of_mem hmem
    exact ⟨front, time, back, htrace⟩
  | _ => cases hsent

/-- After a stop no response is sent that keeps the connection open. -/
theorem not_keepsOpen_of_mem_sends (htrace : (run s failure? p).trace = before ++ (middle ++ after))
    (htold : ∀ stamped ∈ middle, p.Told before stamped.time) :
    ∀ octets ∈ middle.sends, ¬ KeepsOpen octets := by
  intro octets hmem
  obtain ⟨front, time, back, rfl⟩ := exists_of_mem_sends hmem
  rw [List.append_assoc, List.cons_append, ← List.append_assoc] at htrace
  have hnow : p.Told before time := htold ⟨time, .sent octets⟩ List.mem_append_cons_self
  exact not_keepsOpen_of_told htrace (told_append hnow front)

/-- A head is accepted only when every head before it has had a response that keeps the connection
open. -/
theorem not_pending_of_accepted (htrace : (run s failure? p).trace = before ++ stamped :: after)
    (haccept : stamped.event.isAccept) : ¬ before.Pending := by
  obtain ⟨notice, hnotice⟩ : ∃ notice, stamped.event = .logged notice := by
    generalize stamped.event = event at haccept
    cases event with
    | logged notice => exact ⟨notice, rfl⟩
    | _ => cases haccept
  obtain ⟨after', htrace'⟩ := exists_of_failing htrace fun kind => hnotice ▸ nofun
  exact (does_of_run htrace' (hnotice ▸ nofun)).not_pending haccept

/-- What is sent after a stop is the end of a conversation. -/
theorem sends_cases_of_told (htrace : (run s failure? p).trace = before ++ after)
    (htold : ∀ stamped ∈ after, p.Told before stamped.time) :
    ∃ octets, Closes octets ∧
      (after.sends <+: [octets] ∨ after.sends <+: [continueResponse, octets]) := by
  obtain ⟨stage, hpath, -⟩ := path_run s failure? p
  have hclosing : ∀ octets ∈ after.sends, ¬ KeepsOpen octets :=
    not_keepsOpen_of_mem_sends (htrace.trans (congrArg _ (List.append_nil after).symm)) htold
  rw [htrace] at hpath
  obtain ⟨stage', -, hpath'⟩ := hpath.exists_of_append
  obtain ⟨rest, hrest, hsends⟩ := hpath'.exists_completes
  exact sends_cases_of_completes hrest hsends hclosing

/-- A response that closes is the last thing that is done, but for the closing. -/
theorem run_of_closes (htrace : (run s failure? p).trace = before ++ ⟨time, .sent octets⟩ :: after)
    (hcloses : Closes octets) :
    (∀ stamped ∈ after, stamped = ⟨time, .closed⟩ ∨
        stamped = ⟨time, .logged .closingAfterResponse⟩) ∧
      (run s failure? p).ending = some .closed ∧ (run s failure? p).time = time := by
  obtain ⟨after', htrace'⟩ := exists_of_failing htrace nofun
  obtain ⟨closing, hclosing, hrun⟩ := (does_of_run htrace' nofun).run_of_closes hcloses
  have hshown : ∀ stamped ∈ shown time closing, stamped = ⟨time, .closed⟩ ∨
      stamped = ⟨time, .logged .closingAfterResponse⟩ := by
    intro stamped hmem
    obtain ⟨action, haction, rfl⟩ := List.mem_map.1 hmem
    obtain rfl | rfl := hclosing action haction
    · exact .inl rfl
    · exact .inr rfl
  -- as nothing is sent after it, the run does not fail
  have hsame : run s failure? p = run s none p := by
    have hreached : before ++ [⟨time, .sent octets⟩] <+: (run s failure? p).trace :=
      ⟨after, by rw [htrace, List.append_assoc]; rfl⟩
    have hrest : (run s none p).trace =
        before ++ [⟨time, .sent octets⟩] ++ shown time closing := by
      rw [hrun, List.append_assoc]
      rfl
    refine run_eq_of_sends_eq_nil hreached hrest fun stamped hmem octets' => ?_
    obtain rfl | rfl := hshown stamped hmem <;> exact nofun
  rw [hsame, hrun] at htrace ⊢
  obtain ⟨-, rfl⟩ := List.cons.inj (List.append_cancel_left htrace)
  exact ⟨hshown, rfl, rfl⟩

end Failing

/-! ### Whole runs -/

/-- What a stop of the server means to a run. -/
structure Run.WindsDown (s : Settings) (p : Peer) (r : Run) : Prop where
  /-- A stop while the first octet of a request is awaited ends the run at that time, and nothing
  more is read or sent. -/
  idle : ∀ {trace : Trace} {first : Bool} {deadline : Nat} {peer : Peer} {time : Nat},
    Reaches s p trace (.idle first deadline) peer → trace <+: r.trace →
      IsLeast {t | peer.StopsAt t} time → time ≤ deadline →
        ∃ (passed asked : Trace) (notice : Notice), passed.OnlyReceived ∧
          (asked = [] ∨ asked = [⟨time, .stopAsked⟩]) ∧
            (notice = .closingIdleOnShutdown ∨ time = deadline ∧ notice = .idleTimeout) ∧
              r = { trace := trace ++ (passed ++ asked ++ [⟨time, .logged notice⟩])
                    ending := some .closed, time }
  /-- After a stop no response is sent that keeps the connection open. -/
  closes : ∀ {before after : Trace} {time : Nat} {octets : Bytes},
    r.trace = before ++ ⟨time, .sent octets⟩ :: after → p.Told before time → ¬ KeepsOpen octets
  /-- What is sent after a stop is at most one final response, which closes, after a go-ahead or
  without one. -/
  last : ∀ {before after : Trace}, r.trace = before ++ after →
    (∀ stamped ∈ after, p.Told before stamped.time) → ∃ octets, Closes octets ∧
      (after.sends <+: [octets] ∨ after.sends <+: [continueResponse, octets])
  /-- If the server was told before the start, that is all that is sent. -/
  fromStart : p.stopped → ∃ octets, Closes octets ∧
    (r.trace.sends <+: [octets] ∨ r.trace.sends <+: [continueResponse, octets])
  /-- After the response that closes the sending side is closed, and the run is over. -/
  finished : ∀ {before after : Trace} {time : Nat} {octets : Bytes},
    r.trace = before ++ ⟨time, .sent octets⟩ :: after → Closes octets →
      (∀ stamped ∈ after, stamped = ⟨time, .closed⟩ ∨
        stamped = ⟨time, .logged .closingAfterResponse⟩) ∧ r.ending = some .closed ∧ r.time = time
  /-- After a stop at most one head is accepted, and none if a request is under way. -/
  heads : ∀ {before after : Trace}, r.trace = before ++ after →
    (∀ stamped ∈ after, p.Told before stamped.time) →
      after.accepted ≤ 1 ∧ (before.Pending → after.accepted = 0)

/-- A stop while the first octet of a request is awaited is the end of the run. -/
theorem Reaches.run_of_stop {first : Bool} (h : Reaches s p trace (.idle first deadline) peer)
    (hleast : IsLeast {t | peer.StopsAt t} time) (hle : time ≤ deadline) :
    ∃ (passed asked : Trace) (notice : Notice), passed.OnlyReceived ∧
      (asked = [] ∨ asked = [⟨time, .stopAsked⟩]) ∧
        (notice = .closingIdleOnShutdown ∨ time = deadline ∧ notice = .idleTimeout) ∧
          run s none p = { trace := trace ++ (passed ++ asked ++ [⟨time, .logged notice⟩])
                           ending := some .closed, time } := by
  have hidle : (patience (.idle first deadline)).idle = true := rfl
  obtain ⟨hresult, hnow, passed, asked, htrace, hpassed, hasked⟩ :=
    Peer.stopped_read_of_isLeast hidle (deadline_patience_idle first deadline) hleast hle
  obtain hstop | ⟨hdeadline, rfl⟩ := hresult
  · refine ⟨passed, asked, .closingIdleOnShutdown, hpassed, hasked, .inl rfl, ?_⟩
    rw [h.run_of_ended nofun rfl (congrArg input? hstop) rfl rfl, htrace, hnow]
    rfl
  · refine ⟨passed, asked, .idleTimeout, hpassed, hasked, .inr ⟨rfl, rfl⟩, ?_⟩
    rw [h.run_of_ended nofun rfl (congrArg input? hdeadline) rfl rfl, htrace, hnow]
    rfl

/-- A list in which no element with a property comes after another one has at most one of them. -/
theorem countP_le_one {α : Type} {q : α → Bool} {l : List α}
    (h : ∀ front a middle b back, l = front ++ a :: (middle ++ b :: back) → q a → ¬ q b) :
    l.countP q ≤ 1 := by
  induction l with
  | nil => exact Nat.zero_le 1
  | cons a l ih =>
    rw [List.countP_cons]
    by_cases ha : q a
    · have hnone : l.countP q = 0 := by
        refine List.countP_eq_zero.2 fun b hmem => ?_
        obtain ⟨middle, back, rfl⟩ := List.append_of_mem hmem
        exact h [] a middle b back rfl ha
      exact Nat.le_of_eq (by rw [hnone, if_pos ha])
    · rw [if_neg ha]
      exact ih fun front b middle c back heq => h (a :: front) b middle c back (heq ▸ rfl)

/-- **A stop winds every run down**, whatever the settings, the moves of the peer, the sends that
fail and the moment of the stop. -/
theorem windsDown_run (s : Settings) (failure? : Option SendFailure) (p : Peer) :
    (run s failure? p).WindsDown s p where
  idle := by
    intro trace first deadline peer time h htrace hleast hle
    obtain ⟨passed, asked, notice, hpassed, hasked, hnotice, hrun⟩ := h.run_of_stop hleast hle
    refine ⟨passed, asked, notice, hpassed, hasked, hnotice, ?_⟩
    rw [← hrun]
    refine run_eq_of_sends_eq_nil htrace (congrArg Run.trace hrun) ?_
    -- nothing is sent after the wait has begun
    intro stamped hmem octets
    obtain hmem | hlast := List.mem_append.1 hmem
    · obtain hmem | hmem := List.mem_append.1 hmem
      · obtain ⟨move, hmove⟩ := hpassed stamped hmem
        exact hmove ▸ nofun
      · obtain rfl | rfl := hasked
        · cases hmem
        · exact List.mem_singleton.1 hmem ▸ nofun
    · exact List.mem_singleton.1 hlast ▸ nofun
  closes := not_keepsOpen_of_told
  last := sends_cases_of_told
  fromStart hstopped := sends_cases_of_told (List.nil_append _).symm fun _ _ => .inl hstopped
  finished := run_of_closes
  heads := by
    intro before after htrace htold
    refine ⟨countP_le_one fun front a middle b back heq ha hb => ?_, fun hpending => ?_⟩
    · -- the second head would be accepted while the first request is under way
      rw [heq] at htrace htold
      have hsecond : (run s failure? p).trace = (before ++ front ++ a :: middle) ++ b :: back := by
        rw [htrace]
        simp only [List.append_assoc, List.cons_append]
      have hmiddle : (run s failure? p).trace =
          (before ++ (front ++ [a])) ++ (middle ++ b :: back) := by
        rw [htrace]
        simp only [List.append_assoc, List.cons_append, List.nil_append]
      have hclosing : ∀ octets ∈ Trace.sends middle, ¬ KeepsOpen octets := by
        refine not_keepsOpen_of_mem_sends hmiddle fun stamped hmem =>
          told_append (htold stamped ?_) _
        exact List.mem_append_right _ (List.mem_cons_of_mem _ (List.mem_append_left _ hmem))
      exact not_pending_of_accepted hsecond hb ⟨before ++ front, a, middle, rfl, ha, hclosing⟩
    · refine List.countP_eq_zero.2 fun stamped hmem haccept => ?_
      obtain ⟨front, back, rfl⟩ := List.append_of_mem hmem
      have hstamped : (run s failure? p).trace = (before ++ front) ++ stamped :: back :=
        htrace.trans (List.append_assoc before front _).symm
      refine not_pending_of_accepted hstamped haccept (pending_append hpending ?_)
      exact not_keepsOpen_of_mem_sends htrace fun stamped' hmem' =>
        htold stamped' (List.mem_append_left _ hmem')

end Session

end HttpEcho
