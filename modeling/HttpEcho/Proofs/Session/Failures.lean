import HttpEcho.Proofs.Session.Course
import HttpEcho.Proofs.Session.Pipeline

/-!
# Sends that fail

A send that fails cuts a run short: until then the run is the one in which nothing fails
(`Session.run_or_failsShort`). What happens before a failure therefore happens without it too
(`Session.exists_of_failing`), and of what is sent without it the sends before the failing one are
left (`Session.sends_run_of_failure`).
-/

namespace HttpEcho

namespace Session

open Connection

variable {s : Settings} {p : Peer}

/-- The first run is the second one up to a send, which fails. -/
def Run.FailsShort (failing r : Run) : Prop :=
  ∃ before time octets after kind, r.trace = before ++ ⟨time, .sent octets⟩ :: after ∧
    failing = { trace := before ++ [⟨time, .sendFailed kind⟩]
                ending := some (.failed kind.fault), time }

theorem Run.FailsShort.after {failing r : Run} (h : failing.FailsShort r) (trace : Trace) :
    (failing.after trace).FailsShort (r.after trace) := by
  obtain ⟨before, time, octets, after, kind, htrace, rfl⟩ := h
  refine ⟨trace ++ before, time, octets, after, kind, ?_, ?_⟩
  · rw [Run.after, htrace, List.append_assoc]
  · rw [Run.after, List.append_assoc]

/-- Actions are all performed, or they end with a send that fails. -/
theorem perform_cases (failure? : Option SendFailure) (sends : Nat) (actions : List Action) :
    perform failure? sends actions = perform none sends actions ∨
      ∃ front octets back kind, actions = front ++ .send octets :: back ∧
        (perform failure? sends actions).events = front.map Action.event ++ [.sendFailed kind] ∧
          (perform failure? sends actions).failure? = some kind := by
  fun_induction perform failure? sends actions with
  | case1 sends => exact .inl rfl
  | case2 sends notice rest ih =>
    obtain hsame | ⟨front, octets, back, kind, rfl, hevents, hfailure⟩ := ih
    · exact .inl (congrArg (·.after (.logged notice)) hsame)
    · exact .inr ⟨.log notice :: front, octets, back, kind, rfl,
        congrArg (Event.logged notice :: ·) hevents, hfailure⟩
  | case3 sends rest ih =>
    obtain hsame | ⟨front, octets, back, kind, rfl, hevents, hfailure⟩ := ih
    · exact .inl (congrArg (·.after .closed) hsame)
    · exact .inr ⟨.close :: front, octets, back, kind, rfl,
        congrArg (Event.closed :: ·) hevents, hfailure⟩
  | case4 sends octets rest f _ => exact .inr ⟨[], octets, rest, f.kind, rfl, rfl, rfl⟩
  | case5 sends octets rest _ ih =>
    obtain hsame | ⟨front, octets', back, kind, rfl, hevents, hfailure⟩ := ih
    · exact .inl (congrArg (·.after (.sent octets)) hsame)
    · exact .inr ⟨.send octets :: front, octets', back, kind, rfl,
        congrArg (Event.sent octets :: ·) hevents, hfailure⟩

/-- A turn comes out as it does without failures, or it ends with a send that fails. -/
theorem take_cases (s : Settings) (failure? : Option SendFailure) (phase : Phase) (sends : Nat)
    (peer : Peer) (input : Input) :
    take s failure? phase sends peer input = take s none phase sends peer input ∨
      ∃ before octets after kind,
        (take s none phase sends peer input).trace =
            before ++ ⟨peer.now, .sent octets⟩ :: after ∧
          (take s failure? phase sends peer input).trace =
              before ++ [⟨peer.now, .sendFailed kind⟩] ∧
            (take s failure? phase sends peer input).phase = .ended (.failed kind.fault) := by
  obtain hsame | ⟨front, octets, back, kind, hactions, hevents, hfailure⟩ :=
    perform_cases failure? sends (step s peer.now peer.isStopping phase input).actions
  · exact .inl (by rw [take, hsame, take])
  · refine .inr ⟨shown peer.now front, octets, shown peer.now back, kind, ?_, ?_, ?_⟩
    · rw [(take_none s phase sends peer input).2, hactions, shown_append]
      rfl
    · rw [take]
      dsimp only
      rw [hevents, Trace.stamp, List.map_append, List.map_map]
      rfl
    · rw [take]
      dsimp only
      rw [hfailure]

/-- A send that fails makes no difference, or ends the run where it fails. -/
theorem runFrom_or_failsShort (failure? : Option SendFailure) (phase : Phase) (sends : Nat)
    (peer : Peer) :
    runFrom s failure? phase sends peer = runFrom s none phase sends peer ∨
      (runFrom s failure? phase sends peer).FailsShort (runFrom s none phase sends peer) := by
  fun_induction runFrom s failure? phase sends peer with
  | case1 sends peer ending =>
    rw [runFrom]
    exact .inl rfl
  | case2 phase sends peer hphase r hi =>
    rw [runFrom_of_forever hphase rfl hi]
    exact .inl rfl
  | case3 phase sends peer octets hphase r hi took ih =>
    rw [runFrom_of_octets hphase rfl hi]
    obtain hsame | ⟨before, octets', after, kind, hnone, hfails, hended⟩ :=
      take_cases s failure? phase sends r.peer (.octets octets)
    · rw [← hsame]
      rcases ih with hrest | hrest
      · exact .inl (congrArg (Run.after · _) hrest)
      · exact .inr (hrest.after _)
    · refine .inr ⟨r.trace ++ before, r.peer.now, octets', ?_, kind, ?_, ?_⟩
      · exact after ++ (runFrom s none (take s none phase sends r.peer (.octets octets)).phase
          (take s none phase sends r.peer (.octets octets)).sends r.peer).trace
      · rw [Run.after, hnone]
        simp only [List.append_assoc, List.cons_append]
        rfl
      · -- the connection has ended
        have hrun : runFrom s failure? took.phase took.sends r.peer =
            { trace := [], ending := some (.failed kind.fault), time := r.peer.now } := by
          rw [hended, runFrom]
        rw [hrun, Run.after, hfails, List.append_nil, List.append_assoc]
  | case4 phase sends peer input hoctets hphase r hi took =>
    rw [runFrom_of_input hphase rfl hi hoctets]
    obtain hsame | ⟨before, octets', after, kind, hnone, hfails, hended⟩ :=
      take_cases s failure? phase sends r.peer input
    · rw [← hsame]
      exact .inl rfl
    · refine .inr ⟨r.trace ++ before, r.peer.now, octets', after, kind, ?_, ?_⟩
      · rw [hnone, ← List.append_assoc]
      · rw [hfails, hended, List.append_assoc]
        rfl

/-- **A failing send cuts a run short**, if it comes to it. -/
theorem run_or_failsShort (s : Settings) (failure? : Option SendFailure) (p : Peer) :
    run s failure? p = run s none p ∨ (run s failure? p).FailsShort (run s none p) :=
  runFrom_or_failsShort failure? _ 0 p

/-- What happens before a failure happens without it too. -/
theorem exists_of_failing {failure? : Option SendFailure} {before after : Trace} {stamped : Stamped}
    (h : (run s failure? p).trace = before ++ stamped :: after)
    (hfailed : ∀ kind, stamped.event ≠ .sendFailed kind) :
    ∃ after', (run s none p).trace = before ++ stamped :: after' := by
  obtain hsame | ⟨front, time, octets, back, kind, hrun, hfails⟩ := run_or_failsShort s failure? p
  · exact ⟨after, hsame ▸ h⟩
  rw [hfails] at h
  obtain ⟨middle, rfl⟩ | ⟨middle, -, hlast⟩ := split_of_append_eq h
  · rw [hrun, List.append_assoc]
    exact ⟨_, rfl⟩
  · have hmem : stamped ∈ [⟨time, .sendFailed kind⟩] := hlast ▸ List.mem_append_cons_self
    rw [List.mem_singleton.1 hmem] at hfailed
    exact absurd rfl (hfailed kind)

/-- What happens after a common point is the same with a failure, or it is cut short by it. -/
theorem after_cases_of_failing {failure? : Option SendFailure} {before after after' : Trace}
    {stamped : Stamped} (h : (run s failure? p).trace = before ++ stamped :: after)
    (h' : (run s none p).trace = before ++ stamped :: after')
    (hfailed : ∀ kind, stamped.event ≠ .sendFailed kind) :
    after = after' ∨ ∃ middle time octets back kind,
      after' = middle ++ ⟨time, .sent octets⟩ :: back ∧
        after = middle ++ [⟨time, .sendFailed kind⟩] := by
  obtain hsame | ⟨front, time, octets, back, kind, hrun, hfails⟩ := run_or_failsShort s failure? p
  · rw [hsame, h', List.append_cancel_left_eq, List.cons.injEq] at h
    exact .inl h.2.symm
  rw [hfails] at h
  obtain ⟨middle, rfl⟩ | ⟨middle, -, hlast⟩ := split_of_append_eq h
  · rw [List.append_assoc, List.append_cancel_left_eq, List.cons_append, List.cons.injEq] at h
    rw [h', List.append_assoc, List.append_cancel_left_eq, List.cons_append,
      List.cons.injEq] at hrun
    exact .inr ⟨middle, time, octets, back, kind, hrun.2, h.2.symm⟩
  · have hmem : stamped ∈ [⟨time, .sendFailed kind⟩] := hlast ▸ List.mem_append_cons_self
    rw [List.mem_singleton.1 hmem] at hfailed
    exact absurd rfl (hfailed kind)

/-- A run that comes to a point after which nothing is sent does not fail. -/
theorem run_eq_of_sends_eq_nil {failure? : Option SendFailure} {before after : Trace}
    (hbefore : before <+: (run s failure? p).trace) (hrun : (run s none p).trace = before ++ after)
    (hafter : ∀ stamped ∈ after, ∀ octets, stamped.event ≠ .sent octets) :
    run s failure? p = run s none p := by
  obtain hsame | ⟨front, time, octets, back, kind, htrace, hfails⟩ :=
    run_or_failsShort s failure? p
  · exact hsame
  -- the send that fails would come after that point
  exfalso
  rw [hfails] at hbefore
  rw [hrun] at htrace
  rcases List.prefix_concat_iff.1 hbefore with rfl | ⟨middle, rfl⟩
  · rw [List.append_assoc] at htrace
    cases (List.cons.inj (List.append_cancel_left htrace)).1
  · rw [List.append_assoc] at htrace
    have hmem : ⟨time, .sent octets⟩ ∈ after :=
      List.append_cancel_left htrace ▸ List.mem_append_cons_self
    exact hafter _ hmem octets rfl

/-! ### What is sent -/

/-- Actions are performed up to the first send that fails. -/
theorem sends_perform (f : SendFailure) (now sends : Nat) (actions : List Action) :
    Trace.sends (.stamp now (perform (some f) sends actions).events) =
        (actions.filterMap Action.octets?).take (f.first - 1 - sends) ∧
      ((perform (some f) sends actions).failure? = none ∧
          (perform (some f) sends actions).sends =
            sends + (actions.filterMap Action.octets?).length ∧
          (actions.filterMap Action.octets?).length ≤ f.first - 1 - sends ∨
        (∃ kind, (perform (some f) sends actions).failure? = some kind) ∧
          f.first - 1 - sends ≤ (actions.filterMap Action.octets?).length) := by
  induction actions generalizing sends with
  | nil => exact ⟨List.take_nil.symm, .inl ⟨rfl, rfl, Nat.zero_le _⟩⟩
  | cons action actions ih =>
    cases action with
    | log | close => exact ih sends
    | send octets =>
      rw [List.filterMap_cons_some (rfl : Action.octets? (.send octets) = some octets),
        List.length_cons, perform]
      by_cases hfails : f.first ≤ sends + 1
      · have hroom : f.first - 1 - sends = 0 := by omega
        rw [Option.filter_some, if_pos (decide_eq_true hfails), hroom]
        exact ⟨rfl, .inr ⟨⟨f.kind, rfl⟩, Nat.zero_le _⟩⟩
      · have hroom : f.first - 1 - sends = f.first - 1 - (sends + 1) + 1 := by omega
        obtain ⟨hsent, hcases⟩ := ih (sends + 1)
        rw [Option.filter_some, if_neg (mt of_decide_eq_true hfails), hroom, List.take_succ_cons,
          ← hsent]
        refine ⟨rfl, ?_⟩
        obtain ⟨hnone, hcount, hle⟩ | ⟨hkind, hle⟩ := hcases
        · exact .inl ⟨hnone, by rw [Performed.after, hcount]; omega, by omega⟩
        · exact .inr ⟨hkind, by omega⟩

/-- A turn sends what it does without failures, up to the first send that fails. -/
theorem sends_take_of_failure (f : SendFailure) (phase : Phase) (sends : Nat) (peer : Peer)
    (input : Input) :
    (take s (some f) phase sends peer input).trace.sends =
        (take s none phase sends peer input).trace.sends.take (f.first - 1 - sends) ∧
      ((take s (some f) phase sends peer input).phase = (take s none phase sends peer input).phase ∧
          (take s (some f) phase sends peer input).sends =
            sends + (take s none phase sends peer input).trace.sends.length ∧
          (take s none phase sends peer input).trace.sends.length ≤ f.first - 1 - sends ∨
        (∃ ending, (take s (some f) phase sends peer input).phase = .ended ending) ∧
          f.first - 1 - sends ≤ (take s none phase sends peer input).trace.sends.length) := by
  obtain ⟨hphase, hsends⟩ := sends_take phase sends peer input
  rw [hphase, hsends]
  obtain ⟨hsent, hcases⟩ :=
    sends_perform f peer.now sends (step s peer.now peer.isStopping phase input).actions
  refine ⟨hsent, ?_⟩
  obtain ⟨hnone, hcount, hle⟩ | ⟨⟨kind, hkind⟩, hle⟩ := hcases
  · refine .inl ⟨?_, hcount, hle⟩
    rw [take, hnone]
  · refine .inr ⟨⟨.failed kind.fault, ?_⟩, hle⟩
    rw [take, hkind]

theorem sends_runFrom_of_failure (f : SendFailure) (phase : Phase) (sends : Nat) (peer : Peer) :
    (runFrom s (some f) phase sends peer).trace.sends =
      (runFrom s none phase sends peer).trace.sends.take (f.first - 1 - sends) := by
  induction hn : peer.script.length using Nat.strongRecOn generalizing phase sends peer with
  | ind n ih =>
    by_cases hended : ∃ ending, phase = .ended ending
    · obtain ⟨ending, rfl⟩ := hended
      rw [runFrom, runFrom]
      exact List.take_nil.symm
    have hphase : ∀ ending, phase ≠ .ended ending := fun ending hphase => hended ⟨ending, hphase⟩
    have hsilent := peer.sends_read (patience phase)
    cases hinput : input? (peer.read (patience phase)).result with
    | none =>
      rw [runFrom_of_forever hphase rfl hinput, runFrom_of_forever hphase rfl hinput, hsilent]
      exact List.take_nil.symm
    | some input =>
      obtain ⟨hsent, hcases⟩ :=
        sends_take_of_failure f phase sends (peer.read (patience phase)).peer input
      by_cases hoctets : ∃ octets, input = .octets octets
      · obtain ⟨octets, rfl⟩ := hoctets
        have hlt := Peer.length_read_script_lt (input?_eq_octets hinput)
        rw [runFrom_of_octets hphase rfl hinput, runFrom_of_octets hphase rfl hinput, Run.after,
          Run.after, Trace.sends_append, Trace.sends_append, Trace.sends_append,
          Trace.sends_append, hsilent, hsent, List.nil_append, List.nil_append, List.take_append]
        rw [List.append_cancel_left_eq]
        obtain ⟨hsame, hcount, hle⟩ | ⟨⟨ending, hending⟩, hle⟩ := hcases
        · rw [ih _ (hn ▸ hlt) _ _ _ rfl, hsame, hcount, Nat.sub_add_eq, runFrom_none]
        · rw [hending, runFrom, Nat.sub_eq_zero_of_le hle]
          rfl
      · have hnot := fun octets h => hoctets ⟨octets, h⟩
        rw [runFrom_of_input hphase rfl hinput hnot, runFrom_of_input hphase rfl hinput hnot,
          Trace.sends_append, Trace.sends_append, hsilent, hsent]
        rfl

/-- **Of what is sent without a failure**, the sends before the failing one are left. -/
theorem sends_run_of_failure (s : Settings) (f : SendFailure) (p : Peer) :
    (run s (some f) p).trace.sends = (run s none p).trace.sends.take (f.first - 1) :=
  sends_runFrom_of_failure f _ 0 p

/-- What is sent after a point of a run that is common to the run without failures is the beginning
of what is sent after it there. -/
theorem sends_isPrefix {failure? : Option SendFailure} {before after after' : Trace}
    (h : (run s failure? p).trace = before ++ after)
    (h' : (run s none p).trace = before ++ after') :
    after.sends <+: after'.sends := by
  have hprefix : (run s failure? p).trace.sends <+: (run s none p).trace.sends := by
    cases failure? with
    | none => exact List.prefix_rfl
    | some f =>
      rw [sends_run_of_failure]
      exact List.take_prefix _ _
  rw [h, h', Trace.sends_append, Trace.sends_append] at hprefix
  exact (List.prefix_append_right_inj _).1 hprefix

/-- Two runs that send the same without failures send the same with one. -/
theorem sends_run_congr {q : Peer} (h : (run s none p).trace.sends = (run s none q).trace.sends)
    (failure? : Option SendFailure) :
    (run s failure? p).trace.sends = (run s failure? q).trace.sends := by
  cases failure? with
  | none => exact h
  | some f => rw [sends_run_of_failure, sends_run_of_failure, h]

end Session

end HttpEcho
