import HttpEcho.Proofs.Connection.Stopping
import HttpEcho.Proofs.Session.Failures
import HttpEcho.Proofs.Stops

/-!
# Runs with and without a stop

A stop makes no difference to a run, or it ends the run earlier: until then the two runs are the
same, and what is different in the run without the stop comes at that time or later
(`Session.run_hearing`). In particular the peer does nothing in a run with a stop that it does not
do in the run without it.
-/

namespace HttpEcho

open Connection

/-- A peer with another time for a stop from elsewhere. -/
def Peer.hearing (p : Peer) (stop? : Option Nat) : Peer := { p with stopAt := stop? }

/-- The same reading, of a peer with another time for a stop from elsewhere. -/
def Reading.hearing (r : Reading) (stop? : Option Nat) : Reading :=
  { r with peer := r.peer.hearing stop? }

/-- A read is over because of a stop, at its time or later. A read without the stop goes on from
there. -/
structure Reading.CutsShort (cut r : Reading) (stop : Nat) : Prop where
  result_eq : cut.result = .error .stop
  stop_le : stop ≤ cut.peer.now
  now_le : cut.peer.now ≤ r.peer.now
  trace_eq : ∃ later : Trace, r.trace = cut.trace ++ later ∧
    ∀ stamped ∈ later, cut.peer.now ≤ stamped.time

theorem Reading.CutsShort.after {cut r : Reading} {stop : Nat} (h : cut.CutsShort r stop)
    (trace : Trace) : (cut.after trace).CutsShort (r.after trace) stop := by
  obtain ⟨hresult, hstop, hnow, later, htrace, hlater⟩ := h
  refine ⟨hresult, hstop, hnow, later, ?_, hlater⟩
  rw [Reading.after, Reading.after, htrace, List.append_assoc]

namespace Peer

variable {p : Peer} {patience : Patience} {script : List Move} {stop time : Nat} {silence : Silence}

/-! ### Clocks -/

/-- A wait is not over before it begins. -/
theorem le_of_interruption? {target : Option Nat}
    (h : p.interruption? patience target = some (silence, time)) : p.now ≤ time := by
  revert h
  unfold interruption?
  cases p.stopAt <;> cases patience.deadline <;> cases patience.idle
  all_goals
    simp only [Option.map_none, Option.map_some, Option.filter_none, Option.filter_some, if_true,
      Bool.false_eq_true, if_false]
    grind

/-- A read takes place between the time at which it begins and the one at which it is over. -/
theorem clock_readFrom (patience : Patience) (script : List Move) (p : Peer) :
    p.now ≤ (readFrom patience script p).peer.now ∧
      ∀ stamped ∈ (readFrom patience script p).trace,
        p.now ≤ stamped.time ∧ stamped.time ≤ (readFrom patience script p).peer.now := by
  fun_induction readFrom patience script p with
  | case1 | case3 | case4 | case5 | case10 =>
    exact ⟨Nat.le_refl _, List.forall_mem_singleton.2 ⟨Nat.le_refl _, Nat.le_refl _⟩⟩
  | case2 octets rest p trace _ ih =>
    obtain ⟨hnow, htrace⟩ := ih
    exact ⟨hnow, List.forall_mem_append.2
      ⟨List.forall_mem_singleton.2 ⟨Nat.le_refl _, hnow⟩, htrace⟩⟩
  | case6 ms rest p silence time hsome | case8 rest p silence time hsome =>
    exact ⟨le_of_interruption? hsome, List.forall_mem_nil _⟩
  | case7 ms rest p _ ih =>
    obtain ⟨hnow, htrace⟩ := ih
    have hwait : p.now ≤ p.now + ms := Nat.le_add_right _ _
    exact ⟨Nat.le_trans hwait hnow, fun stamped hmem =>
      ⟨Nat.le_trans hwait (htrace stamped hmem).1, (htrace stamped hmem).2⟩⟩
  | case9 => exact ⟨Nat.le_refl _, List.forall_mem_nil _⟩
  | case11 rest p asked stopped _ silence time hsome =>
    have hnow := le_of_interruption? hsome
    exact ⟨hnow, List.forall_mem_singleton.2 ⟨Nat.le_refl _, hnow⟩⟩
  | case12 rest p asked stopped _ _ ih =>
    obtain ⟨hnow, htrace⟩ := ih
    have hwait : p.now ≤ p.now + 1 := Nat.le_succ _
    refine ⟨Nat.le_trans hwait hnow, List.forall_mem_append.2 ⟨?_, fun stamped hmem => ?_⟩⟩
    · exact List.forall_mem_singleton.2 ⟨Nat.le_refl _, Nat.le_trans hwait hnow⟩
    · exact ⟨Nat.le_trans hwait (htrace stamped hmem).1, (htrace stamped hmem).2⟩

/-! ### Reads with and without a stop -/

/-- A wait with a deadline is interrupted if it has no end. -/
theorem interruption?_ne_none (hdeadline : patience.deadline.isSome) :
    p.interruption? patience none ≠ none := by
  obtain ⟨deadline, hdeadline⟩ := Option.isSome_iff_exists.1 hdeadline
  unfold interruption?
  cases p.stopAt <;> cases patience.idle
  all_goals
    simp only [hdeadline, Option.map_none, Option.map_some, Option.filter_none, Option.filter_some,
      if_true, Bool.false_eq_true, if_false, Option.all_none]
    grind

/-- A wait is interrupted in the same way, or by the stop, and then not earlier without it. -/
theorem interruption?_hearing (hlater : ∀ t, p.stopAt = some t → stop ≤ t) (target : Option Nat) :
    (p.hearing (some stop)).interruption? patience target = p.interruption? patience target ∨
      (p.hearing (some stop)).interruption? patience target = some (.stop, max p.now stop) ∧
        patience.idle ∧ target.all (max p.now stop < ·) ∧
          ∀ silence time, p.interruption? patience target = some (silence, time) →
            max p.now stop ≤ time := by
  unfold interruption? hearing
  cases hstop : p.stopAt <;> cases patience.deadline <;> cases patience.idle <;> cases target
  all_goals
    simp only [Option.map_none, Option.map_some, Option.filter_none, Option.filter_some, if_true,
      Bool.false_eq_true, if_false, Option.all_none, Option.all_some, decide_eq_true_eq]
    grind

/-- Hearing of a stop makes no difference to a read, or cuts it short while the connection is
idle. -/
theorem readFrom_hearing (hlater : ∀ t, p.stopAt = some t → stop ≤ t)
    (hidle : patience.idle → patience.deadline.isSome) :
    readFrom patience script (p.hearing (some stop)) =
        (readFrom patience script p).hearing (some stop) ∨
      patience.idle ∧ (readFrom patience script (p.hearing (some stop))).CutsShort
        (readFrom patience script p) stop := by
  fun_induction readFrom patience script p with
  | case1 | case4 | case5 => exact .inl rfl
  | case2 octets rest p trace hempty ih =>
    rw [readFrom, if_pos hempty]
    rcases ih hlater with hsame | ⟨hidle, hcuts⟩
    · exact .inl (congrArg (Reading.after · _) hsame)
    · exact .inr ⟨hidle, hcuts.after _⟩
  | case3 octets rest p trace hempty =>
    rw [readFrom, if_neg hempty]
    exact .inl rfl
  | case6 ms rest p silence time hsome =>
    obtain hsame | ⟨hstop, hidle', -, hle⟩ :=
      interruption?_hearing hlater (some ((p.hearing (some stop)).now + ms))
    · rw [readFrom, hsame.trans hsome]
      exact .inl rfl
    · rw [readFrom, hstop]
      exact .inr ⟨hidle', rfl, Nat.le_max_right _ _, hle _ _ hsome, [], rfl, List.forall_mem_nil _⟩
  | case7 ms rest p hnone ih =>
    obtain hsame | ⟨hstop, hidle', hbefore, -⟩ :=
      interruption?_hearing hlater (some ((p.hearing (some stop)).now + ms))
    · rw [readFrom, hsame.trans hnone]
      exact ih hlater
    · -- without the stop the wait is over after it
      have hlt : max p.now stop < p.now + ms := of_decide_eq_true hbefore
      obtain ⟨hnow, htrace⟩ := clock_readFrom patience rest (p.advance rest (p.now + ms))
      rw [readFrom, hstop]
      refine .inr ⟨hidle', rfl, Nat.le_max_right _ _, Nat.le_trans (Nat.le_of_lt hlt) hnow, _,
        rfl, ?_⟩
      exact fun stamped hmem => Nat.le_trans (Nat.le_of_lt hlt) (htrace stamped hmem).1
  | case8 rest p silence time hsome =>
    obtain hsame | ⟨hstop, hidle', -, hle⟩ := interruption?_hearing hlater none
    · rw [readFrom, hsame.trans hsome]
      exact .inl rfl
    · rw [readFrom, hstop]
      exact .inr ⟨hidle', rfl, Nat.le_max_right _ _, hle _ _ hsome, [], rfl, List.forall_mem_nil _⟩
  | case9 rest p hnone =>
    obtain hsame | ⟨-, hidle', -⟩ := interruption?_hearing hlater none
    · rw [readFrom, hsame.trans hnone]
      exact .inl rfl
    · exact absurd hnone (interruption?_ne_none (hidle hidle'))
  | case10 rest p asked stopped hidle =>
    -- a stop that the moves bring is heard by both reads
    rw [readFrom, if_pos hidle]
    exact .inl rfl
  | case11 rest p asked stopped hidle silence time hsome =>
    obtain hsame | ⟨-, hidle', -⟩ := interruption?_hearing (p := stopped) hlater (some (p.now + 1))
    · have hstopped : Peer.interruption? { p.hearing (some stop) with stopped := true } patience
          (some ((p.hearing (some stop)).now + 1)) = some (silence, time) := hsame.trans hsome
      rw [readFrom, if_neg hidle]
      dsimp only
      rw [hstopped]
      exact .inl rfl
    · exact absurd hidle' hidle
  | case12 rest p asked stopped hidle hnone ih =>
    obtain hsame | ⟨-, hidle', -⟩ := interruption?_hearing (p := stopped) hlater (some (p.now + 1))
    · have hstopped : Peer.interruption? { p.hearing (some stop) with stopped := true } patience
          (some ((p.hearing (some stop)).now + 1)) = none := hsame.trans hnone
      rw [readFrom, if_neg hidle]
      dsimp only
      rw [hstopped]
      rcases ih hlater with hrest | ⟨hidle', -⟩
      · exact .inl (congrArg (Reading.after · _) hrest)
      · exact absurd hidle' hidle
    · exact absurd hidle' hidle

/-- **A read is the same, or a stop cuts it short.** -/
theorem read_hearing (hlater : ∀ t, p.stopAt = some t → stop ≤ t)
    (hidle : patience.idle → patience.deadline.isSome) :
    (p.hearing (some stop)).read patience = (p.read patience).hearing (some stop) ∨
      patience.idle ∧
        ((p.hearing (some stop)).read patience).CutsShort (p.read patience) stop :=
  readFrom_hearing hlater hidle

end Peer

namespace Session

variable {s : Settings} {failure? : Option SendFailure} {phase : Phase} {sends stop : Nat}
  {p peer : Peer} {input : Input}

/-- A run is over because of a stop, at its time or later. Up to then it is the run without the
stop, and the peer does nothing in the rest of it. -/
structure Run.CutsShort (cut r : Run) (stop : Nat) : Prop where
  isSome_ending : cut.ending.isSome
  stop_le : stop ≤ cut.time
  time_le : cut.time ≤ r.time
  trace_eq : ∃ common own later : Trace, cut.trace = common ++ own ∧ r.trace = common ++ later ∧
    (∀ stamped ∈ own, stamped.time = cut.time ∧ ¬ stamped.event.isOfPeer) ∧
      ∀ stamped ∈ later, cut.time ≤ stamped.time

theorem Run.CutsShort.after {cut r : Run} (h : cut.CutsShort r stop) (trace : Trace) :
    (cut.after trace).CutsShort (r.after trace) stop := by
  obtain ⟨hending, hstop, htime, common, own, later, hcut, hr, hown, hlater⟩ := h
  refine ⟨hending, hstop, htime, trace ++ common, own, later, ?_, ?_, hown, hlater⟩
  · rw [Run.after, hcut, List.append_assoc]
  · rw [Run.after, hr, List.append_assoc]

/-! ### Clocks -/

/-- A turn takes no time. -/
theorem time_of_mem_take {stamped : Stamped}
    (h : stamped ∈ (take s failure? phase sends peer input).trace) : stamped.time = peer.now := by
  obtain ⟨event, -, rfl⟩ := List.mem_map.1 h
  rfl

/-- A run takes place after the time at which it begins. -/
theorem clock_runFrom (s : Settings) (failure? : Option SendFailure) (phase : Phase) (sends : Nat)
    (peer : Peer) :
    peer.now ≤ (runFrom s failure? phase sends peer).time ∧
      ∀ stamped ∈ (runFrom s failure? phase sends peer).trace, peer.now ≤ stamped.time := by
  fun_induction runFrom s failure? phase sends peer with
  | case1 => exact ⟨Nat.le_refl _, List.forall_mem_nil _⟩
  | case2 phase sends peer _ r _ =>
    obtain ⟨hnow, htrace⟩ := peer.clock_readFrom (patience phase) peer.script
    exact ⟨hnow, fun stamped hmem => (htrace stamped hmem).1⟩
  | case3 phase sends peer octets _ r _ took ih =>
    obtain ⟨hnow, htrace⟩ := peer.clock_readFrom (patience phase) peer.script
    obtain ⟨htime, hrest⟩ := ih
    refine ⟨Nat.le_trans hnow htime, List.forall_mem_append.2
      ⟨List.forall_mem_append.2 ⟨?_, ?_⟩, ?_⟩⟩
    · exact fun stamped hmem => (htrace stamped hmem).1
    · exact fun stamped hmem => (time_of_mem_take hmem).symm ▸ hnow
    · exact fun stamped hmem => Nat.le_trans hnow (hrest stamped hmem)
  | case4 phase sends peer input _ _ r _ took =>
    obtain ⟨hnow, htrace⟩ := peer.clock_readFrom (patience phase) peer.script
    refine ⟨hnow, List.forall_mem_append.2 ⟨?_, ?_⟩⟩
    · exact fun stamped hmem => (htrace stamped hmem).1
    · exact fun stamped hmem => (time_of_mem_take hmem).symm ▸ hnow

/-- What comes after a turn comes at its time or later. -/
theorem runFrom_of_turn (s : Settings) (failure? : Option SendFailure) (sends : Nat) {r : Reading}
    (hphase : ∀ ending, phase ≠ .ended ending) (hr : peer.read (patience phase) = r)
    (hinput : input? r.result = some input) : ∃ rest : Trace,
      (runFrom s failure? phase sends peer).trace =
        r.trace ++ ((take s failure? phase sends r.peer input).trace ++ rest) ∧
      (∀ stamped ∈ rest, r.peer.now ≤ stamped.time) ∧
        r.peer.now ≤ (runFrom s failure? phase sends peer).time := by
  by_cases hoctets : ∃ octets, input = .octets octets
  · obtain ⟨octets, rfl⟩ := hoctets
    obtain ⟨htime, hrest⟩ := clock_runFrom s failure?
      (take s failure? phase sends r.peer (.octets octets)).phase
        (take s failure? phase sends r.peer (.octets octets)).sends r.peer
    rw [runFrom_of_octets hphase hr hinput]
    exact ⟨_, List.append_assoc _ _ _, hrest, htime⟩
  · rw [runFrom_of_input hphase hr hinput fun octets heq => hoctets ⟨octets, heq⟩]
    exact ⟨[], congrArg (r.trace ++ ·) (List.append_nil _).symm, List.forall_mem_nil _,
      Nat.le_refl _⟩

/-- What comes after a read comes at its time or later. -/
theorem runFrom_of_read (s : Settings) (failure? : Option SendFailure) (sends : Nat) {r : Reading}
    (hphase : ∀ ending, phase ≠ .ended ending) (hr : peer.read (patience phase) = r) :
    ∃ rest : Trace, (runFrom s failure? phase sends peer).trace = r.trace ++ rest ∧
      (∀ stamped ∈ rest, r.peer.now ≤ stamped.time) ∧
        r.peer.now ≤ (runFrom s failure? phase sends peer).time := by
  cases hinput : input? r.result with
  | none =>
    rw [runFrom_of_forever hphase hr hinput]
    exact ⟨[], (List.append_nil _).symm, List.forall_mem_nil _, Nat.le_refl _⟩
  | some input =>
    obtain ⟨rest, htrace, hrest, htime⟩ :=
      runFrom_of_turn s failure? sends hphase hr hinput
    refine ⟨_, htrace, List.forall_mem_append.2 ⟨?_, hrest⟩, htime⟩
    exact fun stamped hmem => (time_of_mem_take hmem).symm ▸ Nat.le_refl _

/-! ### Turns with and without a stop -/

/-- Up to a send, actions are performed in the same way whatever comes then. -/
theorem perform_append_send (failure? : Option SendFailure) (sends : Nat) (common : List Action) :
    (∃ failed : Performed, failed.failure?.isSome ∧
        ∀ octets more, perform failure? sends (common ++ .send octets :: more) = failed) ∨
      ∃ n, ∀ octets more, perform failure? sends (common ++ .send octets :: more) =
        { events := common.map Action.event ++ .sent octets :: (perform failure? n more).events
          sends := (perform failure? n more).sends
          failure? := (perform failure? n more).failure? } := by
  induction common generalizing sends with
  | nil =>
    cases hfails : failure?.filter fun f => f.first ≤ sends + 1 with
    | some f =>
      refine .inl ⟨⟨[.sendFailed f.kind], sends + 1, some f.kind⟩, rfl, fun octets more => ?_⟩
      rw [List.nil_append, perform, hfails]
    | none =>
      refine .inr ⟨sends + 1, fun octets more => ?_⟩
      rw [List.nil_append, perform, hfails]
      rfl
  | cons action common ih =>
    -- an action before the send puts its event in front of whatever comes
    have hafter : ∀ sends', (∀ rest, perform failure? sends (action :: rest) =
          (perform failure? sends' rest).after action.event) →
        (∃ failed : Performed, failed.failure?.isSome ∧ ∀ octets more,
            perform failure? sends (action :: common ++ .send octets :: more) = failed) ∨
          ∃ n, ∀ octets more, perform failure? sends (action :: common ++ .send octets :: more) =
            { events := (action :: common).map Action.event ++
                .sent octets :: (perform failure? n more).events
              sends := (perform failure? n more).sends
              failure? := (perform failure? n more).failure? } := by
      intro sends' hperform
      obtain ⟨failed, hfailed, hall⟩ | ⟨n, hall⟩ := ih sends'
      · refine .inl ⟨failed.after action.event, hfailed, fun octets more => ?_⟩
        rw [List.cons_append, hperform, hall]
      · refine .inr ⟨n, fun octets more => ?_⟩
        rw [List.cons_append, hperform, hall]
        rfl
    cases action with
    | log notice => exact hafter sends fun _ => rfl
    | close => exact hafter sends fun _ => rfl
    | send octets =>
      cases hfails : failure?.filter fun f => f.first ≤ sends + 1 with
      | some f =>
        refine .inl ⟨⟨[.sendFailed f.kind], sends + 1, some f.kind⟩, rfl, fun octets' more => ?_⟩
        rw [List.cons_append, perform, hfails]
      | none =>
        refine hafter (sends + 1) fun rest => ?_
        rw [perform, hfails]
        rfl

/-- A connection that knows of a stop knows of an earlier one too. -/
theorem isStopping_hearing (hlater : ∀ t, peer.stopAt = some t → stop ≤ t) :
    (peer.hearing (some stop)).isStopping = peer.isStopping ∨
      stop ≤ peer.now ∧ (peer.hearing (some stop)).isStopping = true ∧ peer.isStopping = false := by
  unfold Peer.isStopping Peer.hearing
  cases hstop : peer.stopAt <;> grind

theorem take_of_step {turn : Turn} (h : step s peer.now peer.isStopping phase input = turn) :
    take s failure? phase sends peer input =
      { trace := .stamp peer.now (perform failure? sends turn.actions).events
        phase := match (perform failure? sends turn.actions).failure? with
          | some kind => .ended (.failed kind.fault)
          | none => turn.phase
        sends := (perform failure? sends turn.actions).sends } := by
  subst h
  rfl

/-- A stop makes no difference to a turn, or the connection ends with it. -/
theorem take_hearing (s : Settings) (failure? : Option SendFailure) (phase : Phase) (sends : Nat)
    (input : Input) (hlater : ∀ t, peer.stopAt = some t → stop ≤ t) :
    take s failure? phase sends (peer.hearing (some stop)) input =
        take s failure? phase sends peer input ∨
      stop ≤ peer.now ∧
        (take s failure? phase sends (peer.hearing (some stop)) input).phase = .ended .closed ∧
          ∃ common own later : Trace,
            (take s failure? phase sends (peer.hearing (some stop)) input).trace = common ++ own ∧
              (take s failure? phase sends peer input).trace = common ++ later ∧
                ∀ stamped ∈ own, ¬ stamped.event.isOfPeer := by
  obtain hsame | ⟨hstop, htrue, hfalse⟩ := isStopping_hearing hlater
  · rw [take, hsame]
    exact .inl rfl
  have hclosing : step s (peer.hearing (some stop)).now (peer.hearing (some stop)).isStopping phase
      input = step s peer.now true phase input := by
    rw [htrue]
    rfl
  have hturn : step s peer.now peer.isStopping phase input = step s peer.now false phase input := by
    rw [hfalse]
  rw [take_of_step hclosing, take_of_step hturn]
  have hcuts : (step s peer.now true phase input).CutsShort (step s peer.now false phase input) :=
    cutsShort_step phase input
  generalize step s peer.now true phase input = closing at hcuts ⊢
  generalize step s peer.now false phase input = turn at hcuts ⊢
  cases hcuts with
  | same => exact .inl rfl
  | @cut _ common more octets kept hactions =>
    rw [part, finish, hactions]
    obtain ⟨failed, hfailed, hall⟩ | ⟨n, hall⟩ := perform_append_send failure? sends common
    · -- both fail before the turns part
      obtain ⟨kind, hkind⟩ := Option.isSome_iff_exists.1 hfailed
      rw [hall, hall, hkind]
      exact .inl rfl
    · rw [hall, hall]
      refine .inr ⟨hstop, rfl, .stamp peer.now (common.map Action.event),
        .stamp peer.now [.sent octets, .logged .closingAfterResponse, .closed],
        .stamp peer.now (.sent kept :: (perform failure? n more).events), ?_, ?_, ?_⟩
      · exact List.map_append
      · exact List.map_append
      · exact List.forall_mem_cons.2 ⟨Bool.false_ne_true, List.forall_mem_cons.2
          ⟨Bool.false_ne_true, List.forall_mem_singleton.2 Bool.false_ne_true⟩⟩

/-! ### Runs with and without a stop -/

theorem isSome_deadline_of_idle (h : (patience phase).idle) : (patience phase).deadline.isSome := by
  cases phase <;> first | rfl | cases h

/-- Hearing of a stop makes no difference to a run, or cuts it short at a wait between two
requests. -/
theorem runFrom_hearing (phase : Phase) (sends : Nat) (peer : Peer)
    (hlater : ∀ t, peer.stopAt = some t → stop ≤ t) :
    runFrom s failure? phase sends (peer.hearing (some stop)) =
        runFrom s failure? phase sends peer ∨
      (runFrom s failure? phase sends (peer.hearing (some stop))).CutsShort
        (runFrom s failure? phase sends peer) stop := by
  induction hn : peer.script.length using Nat.strongRecOn generalizing phase sends peer with
  | ind n ih =>
    by_cases hended : ∃ ending, phase = .ended ending
    · obtain ⟨ending, rfl⟩ := hended
      rw [runFrom, runFrom]
      exact .inl rfl
    have hphase : ∀ ending, phase ≠ .ended ending := fun ending hphase => hended ⟨ending, hphase⟩
    generalize hr : peer.read (patience phase) = r
    generalize hcut : (peer.hearing (some stop)).read (patience phase) = cut
    obtain hsame | ⟨hidle, hcuts⟩ := Peer.read_hearing hlater isSome_deadline_of_idle
    · rw [hr, hcut] at hsame
      subst hsame
      have hlater' : ∀ t, r.peer.stopAt = some t → stop ≤ t := by
        rw [← hr, peer.stopAt_read]
        exact hlater
      cases hinput : input? r.result with
      | none =>
        rw [runFrom_of_forever hphase hcut hinput, runFrom_of_forever hphase hr hinput]
        exact .inl rfl
      | some input =>
        obtain hsame | ⟨hstop, hended, common, own, later, hown, hlater, hpeer⟩ :=
          take_hearing s failure? phase sends input hlater'
        · by_cases hoctets : ∃ octets, input = .octets octets
          · obtain ⟨octets, rfl⟩ := hoctets
            rw [runFrom_of_octets hphase hcut hinput, runFrom_of_octets hphase hr hinput]
            have hscript : r.peer.script.length < n := by
              rw [← hn, ← hr]
              exact Peer.length_read_script_lt (input?_eq_octets (hr.symm ▸ hinput))
            have htook : take s failure? phase sends (r.hearing (some stop)).peer (.octets octets) =
                take s failure? phase sends r.peer (.octets octets) := hsame
            rw [htook]
            rcases ih _ hscript (take s failure? phase sends r.peer (.octets octets)).phase
              (take s failure? phase sends r.peer (.octets octets)).sends r.peer hlater' rfl
              with hrest | hrest
            · exact .inl (congrArg (Run.after · _) hrest)
            · exact .inr (hrest.after _)
          · have hnot := fun octets heq => hoctets ⟨octets, heq⟩
            have htook : take s failure? phase sends (r.hearing (some stop)).peer input =
                take s failure? phase sends r.peer input := hsame
            rw [runFrom_of_input hphase hcut hinput hnot, runFrom_of_input hphase hr hinput hnot,
              htook]
            exact .inl rfl
        · -- the turns part, and the connection ends
          obtain ⟨rest, hrun, hrest, htime⟩ := runFrom_of_turn s failure? sends hphase hr hinput
          rw [runFrom_of_ended hphase hcut hinput hended]
          refine .inr ⟨rfl, hstop, htime, r.trace ++ common, own, later ++ rest, ?_, ?_, ?_, ?_⟩
          · rw [List.append_assoc]
            exact congrArg (r.trace ++ ·) hown
          · rw [hrun, hlater]
            simp only [List.append_assoc]
          · refine fun stamped hmem => ⟨?_, hpeer stamped hmem⟩
            have htook : stamped ∈
                (take s failure? phase sends (r.peer.hearing (some stop)) input).trace :=
              hown ▸ List.mem_append_right _ hmem
            exact time_of_mem_take htook
          · refine List.forall_mem_append.2 ⟨fun stamped hmem => ?_, hrest⟩
            have htook : stamped ∈ (take s failure? phase sends r.peer input).trace :=
              hlater ▸ List.mem_append_right _ hmem
            exact (time_of_mem_take htook).symm ▸ Nat.le_refl _
    · -- the stop ends the read
      rw [hr, hcut] at hcuts
      obtain ⟨hresult, hstop, hnow, later, htrace, hlater⟩ := hcuts
      obtain ⟨first, deadline, rfl⟩ : ∃ first deadline, phase = .idle first deadline := by
        cases phase <;> first | exact ⟨_, _, rfl⟩ | cases hidle
      obtain ⟨rest, hrun, hrest, htime⟩ := runFrom_of_read s failure? sends hphase hr
      rw [runFrom_of_ended hphase hcut (congrArg input? hresult) rfl]
      refine .inr ⟨rfl, hstop, Nat.le_trans hnow htime, cut.trace, _, later ++ rest, rfl,
        ?_, ?_, ?_⟩
      · rw [hrun, htrace, List.append_assoc]
      · exact List.forall_mem_singleton.2 ⟨rfl, Bool.false_ne_true⟩
      · refine List.forall_mem_append.2 ⟨hlater, ?_⟩
        exact fun stamped hmem => Nat.le_trans hnow (hrest stamped hmem)

/-- **A stop makes no difference to a run, or it cuts it short.** -/
theorem run_hearing (s : Settings) (failure? : Option SendFailure) (peer : Peer)
    (hlater : ∀ t, peer.stopAt = some t → stop ≤ t) :
    run s failure? (peer.hearing (some stop)) = run s failure? peer ∨
      (run s failure? (peer.hearing (some stop))).CutsShort (run s failure? peer) stop :=
  runFrom_hearing _ 0 peer hlater

end Session

end HttpEcho
