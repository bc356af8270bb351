import HttpEcho.Proofs.Connection.Course

/-!
# The course of a run

The trace of a run is a path through the stages of a conversation (`Session.path_run`): reading
and performing are, and a turn of the connection leads to a stage that fits the phase after it.
The run never ends before the closing that follows a response that closes, and an end that the
conversation came to is the end of the run.
-/

namespace HttpEcho

open Connection Stage

/-! ### Reading and performing -/

/-- The stage after a read while the conversation goes on. -/
def Peer.stageAfter (now : Nat) (promised : Bool) : Except Silence Arrival → Stage
  | .ok .endOfInput => .done now .closed
  | .ok (.failure kind) => .done now (.failed kind.fault)
  | _ => .going promised

/-- A read is a path. -/
theorem Peer.path_read {patience : Patience} {p : Peer} {promised : Bool} :
    Path (.going promised) (p.read patience).trace
      (stageAfter (p.read patience).peer.now promised (p.read patience).result) := by
  unfold read
  generalize p.script = script
  fun_induction readFrom patience script p with
  | case1 p => exact .cons .endOfInput .nil
  | case2 octets rest p _ _ ih => exact .cons .received ih
  | case3 octets rest p _ _ => exact .cons .received .nil
  | case4 rest p => exact .cons .endOfInput .nil
  | case5 kind rest p => exact .cons .readFailed .nil
  | case6 => exact .nil
  | case7 ms rest p _ ih => exact ih
  | case8 => exact .nil
  | case9 => exact .nil
  | case10 => exact .cons .stopAsked .nil
  | case11 => exact .cons .stopAsked .nil
  | case12 rest p _ _ _ _ ih => exact .cons .stopAsked ih

namespace Session

variable {s : Settings} (failure? : Option SendFailure)

/-- Performing actions is a path, which a send that fails cuts short. -/
theorem path_perform {now : Nat} {stage stage' : Stage} {actions : List Action}
    (h : Leads now stage actions stage') (sends : Nat) :
    Path stage (.stamp now (perform failure? sends actions).events)
      (match (perform failure? sends actions).failure? with
        | some kind => .done now (.failed kind.fault)
        | none => stage') := by
  fun_induction perform failure? sends actions generalizing stage with
  | case1 sends => exact h
  | case2 sends notice rest ih =>
    cases h with
    | cons step hrest => exact .cons step (ih hrest)
  | case3 sends rest ih =>
    cases h with
    | cons step hrest => exact .cons step (ih hrest)
  | case4 sends octets rest f hf =>
    cases h with
    | cons step hrest =>
      cases step with
      | goAhead | respond | part => exact .cons .sendFailed .nil
  | case5 sends octets rest hf ih =>
    cases h with
    | cons step hrest => exact .cons step (ih hrest)

/-- A turn as it comes out is a path to a stage that fits the phase after it. -/
theorem path_take {stage : Stage} {phase : Phase} {peer : Peer} {input : Input} (sends : Nat)
    (h : (step s peer.now peer.isStopping phase input).Fits peer.now stage) :
    ∃ stage', Path stage (take s failure? phase sends peer input).trace stage' ∧
      (take s failure? phase sends peer input).phase.Fits peer.now stage' := by
  obtain ⟨stage', hleads, hfits⟩ := h
  have hpath := path_perform failure? hleads sends
  unfold take
  dsimp only
  cases hfailure : (perform failure? sends
      (step s peer.now peer.isStopping phase input).actions).failure? with
  | none =>
    rw [hfailure] at hpath
    exact ⟨stage', hpath, hfits⟩
  | some kind =>
    rw [hfailure] at hpath
    exact ⟨_, hpath, .done⟩

/-! ### Runs -/

/-- An end that the conversation came to is the end of the run. -/
def Run.EndsAt (r : Run) : Stage → Prop
  | .going _ => True
  | .parting _ => False
  | .done time ending => r.ending = some ending ∧ r.time = time

/-- A phase that waits for something fits only a conversation that goes on, and at any time. -/
theorem going_of_fits {now : Nat} {phase : Phase} {stage : Stage} (h : phase.Fits now stage)
    (hphase : ∀ ending, phase ≠ .ended ending) :
    ∃ promised, stage = .going promised ∧ ∀ now', phase.Fits now' (.going promised) := by
  cases h with
  | idle => exact ⟨_, rfl, fun _ => .idle⟩
  | head => exact ⟨_, rfl, fun _ => .head⟩
  | body => exact ⟨_, rfl, fun _ => .body⟩
  | ended | done => exact absurd rfl (hphase _)

/-- Whatever a read brings, the step that it leads to fits. -/
theorem fits_step_input {now : Nat} {stopping promised : Bool} {phase : Phase} {input : Input}
    {result : Except Silence Arrival} (hinput : input? result = some input)
    (h : phase.Fits now (.going promised)) (hphase : ∀ ending, phase ≠ .ended ending) :
    (step s now stopping phase input).Fits now (Peer.stageAfter now promised result) := by
  match result with
  | .ok .endOfInput =>
    obtain rfl := Option.some.inj hinput
    exact fits_step_endOfInput hphase
  | .ok (.failure kind) =>
    obtain rfl := Option.some.inj hinput
    exact fits_step_failure hphase
  | .ok (.octets _) | .error _ => exact fits_step h

/-- The run from a phase on is a path from any stage that fits the phase. -/
theorem path_runFrom (phase : Phase) (sends : Nat) (peer : Peer) :
    ∀ stage, phase.Fits peer.now stage → ∃ stage',
      Path stage (runFrom s failure? phase sends peer).trace stage' ∧
      (runFrom s failure? phase sends peer).EndsAt stage' := by
  fun_induction runFrom s failure? phase sends peer with
  | case1 sends peer ending =>
    intro stage h
    cases h with
    | ended => exact ⟨_, .nil, trivial⟩
    | done => exact ⟨_, .nil, rfl, rfl⟩
  | case2 phase sends peer hphase r hi =>
    intro stage h
    obtain ⟨promised, rfl, -⟩ := going_of_fits h hphase
    have hread : Path (.going promised) r.trace (Peer.stageAfter r.peer.now promised r.result) :=
      Peer.path_read
    -- only a silence without end is no input
    have hgoing : Peer.stageAfter r.peer.now promised r.result = .going promised := by
      revert hi
      cases r.result with
      | ok arrival => cases arrival <;> exact nofun
      | error silence => exact fun _ => rfl
    exact ⟨.going promised, hgoing ▸ hread, trivial⟩
  | case3 phase sends peer octets hphase r hi took ih =>
    intro stage h
    obtain ⟨promised, rfl, hfits⟩ := going_of_fits h hphase
    have hread : Path (.going promised) r.trace (Peer.stageAfter r.peer.now promised r.result) :=
      Peer.path_read
    have hstep : (step s r.peer.now r.peer.isStopping phase (.octets octets)).Fits r.peer.now
        (Peer.stageAfter r.peer.now promised r.result) :=
      fits_step_input hi (hfits r.peer.now) hphase
    obtain ⟨stage, htake, hphase'⟩ := path_take failure? sends hstep
    obtain ⟨stage', hrest, hend⟩ := ih stage hphase'
    refine ⟨stage', (hread.append htake).append hrest, ?_⟩
    cases stage' <;> exact hend
  | case4 phase sends peer input _ hphase r hi took =>
    intro stage h
    obtain ⟨promised, rfl, hfits⟩ := going_of_fits h hphase
    have hread : Path (.going promised) r.trace (Peer.stageAfter r.peer.now promised r.result) :=
      Peer.path_read
    have hstep : (step s r.peer.now r.peer.isStopping phase input).Fits r.peer.now
        (Peer.stageAfter r.peer.now promised r.result) :=
      fits_step_input hi (hfits r.peer.now) hphase
    obtain ⟨stage, htake, hphase'⟩ := path_take failure? sends hstep
    refine ⟨stage, hread.append htake, ?_⟩
    revert hphase'
    generalize hended : (take s failure? phase sends r.peer input).phase = phase'
    intro hphase'
    cases hphase' with
    | idle | head | body | ended => exact trivial
    | done => exact ⟨rfl, rfl⟩

/-- **A run is a path** from the beginning of a conversation. -/
theorem path_run (s : Settings) (failure? : Option SendFailure) (peer : Peer) :
    ∃ stage, Path (.going false) (run s failure? peer).trace stage ∧
      (run s failure? peer).EndsAt stage :=
  path_runFrom failure? _ _ _ _ .idle

end Session

end HttpEcho
