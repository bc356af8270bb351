import HttpEcho.Proofs.Connection.Course
import HttpEcho.Proofs.Waiting
import Mathlib.Logic.Relation

/-!
# Runs, turn by turn

A run is a sequence of reads, each with the turn of the connection that it leads to. The equations
of `Session.runFrom` say so (`Session.runFrom_of_octets`, `Session.runFrom_of_input`), and
`Session.Reaches` says in which phases a run without failures comes to wait, and after what. It
waits once at a time (`Session.Reaches.eq_or_isPrefix`), and whatever happens in it that is not done
by the peer belongs to a turn that follows a wait (`Session.does_of_run`).
-/

namespace HttpEcho

open Connection

namespace Connection

/-- What is seen of actions at a time. -/
def shown (now : Nat) (actions : List Action) : Trace :=
  actions.map fun action => ⟨now, action.event⟩

theorem shown_append (now : Nat) (actions actions' : List Action) :
    shown now (actions ++ actions') = shown now actions ++ shown now actions' :=
  List.map_append

/-- What is seen is an action, with what is seen before and after it. -/
theorem exists_action_of_shown {now : Nat} {actions : List Action} {before after : Trace}
    {stamped : Stamped} (h : shown now actions = before ++ stamped :: after) :
    ∃ front action back, actions = front ++ action :: back ∧ before = shown now front ∧
      stamped = ⟨now, action.event⟩ := by
  obtain ⟨front, rest, rfl, hbefore, hrest⟩ := List.map_eq_append_iff.1 h
  obtain ⟨action, back, rfl, hstamped, -⟩ := List.map_eq_cons_iff.1 hrest
  exact ⟨front, action, back, rfl, hbefore.symm, hstamped.symm⟩

end Connection

namespace Session

variable {s : Settings} {p peer : Peer} {r : Reading} {trace : Trace} {phase : Phase}
  {octets : Bytes} {input : Input} {turn : Turn} {failure? : Option SendFailure}

/-! ### Equations -/

section Equations

variable {sends : Nat} (hphase : ∀ ending, phase ≠ .ended ending)
  (hr : peer.read (patience phase) = r)

include hphase hr

theorem runFrom_of_forever (hinput : input? r.result = none) :
    runFrom s failure? phase sends peer =
      { trace := r.trace, ending := none, time := r.peer.now } := by
  subst hr
  rw [runFrom.eq_def]
  split
  case h_1 ending => exact absurd rfl (hphase ending)
  case h_2 =>
    dsimp only
    split
    case h_1 => rfl
    case h_2 hsome | h_3 hsome => cases hinput.symm.trans hsome

theorem runFrom_of_octets (hinput : input? r.result = some (.octets octets)) :
    runFrom s failure? phase sends peer =
      (runFrom s failure? (take s failure? phase sends r.peer (.octets octets)).phase
        (take s failure? phase sends r.peer (.octets octets)).sends r.peer).after
          (r.trace ++ (take s failure? phase sends r.peer (.octets octets)).trace) := by
  subst hr
  rw [runFrom.eq_def]
  split
  case h_1 ending => exact absurd rfl (hphase ending)
  case h_2 =>
    dsimp only
    split
    case h_1 hnone => cases hinput.symm.trans hnone
    case h_2 octets' hsome =>
      cases hinput.symm.trans hsome
      rfl
    case h_3 input hne hsome =>
      cases hinput.symm.trans hsome
      exact absurd rfl (hne octets)

theorem runFrom_of_input (hinput : input? r.result = some input)
    (hoctets : ∀ octets, input ≠ .octets octets) :
    runFrom s failure? phase sends peer =
      { trace := r.trace ++ (take s failure? phase sends r.peer input).trace
        ending := ending? (take s failure? phase sends r.peer input).phase
        time := r.peer.now } := by
  subst hr
  rw [runFrom.eq_def]
  split
  case h_1 ending => exact absurd rfl (hphase ending)
  case h_2 =>
    dsimp only
    split
    case h_1 hnone => cases hinput.symm.trans hnone
    case h_2 octets hsome =>
      cases hinput.symm.trans hsome
      exact absurd rfl (hoctets octets)
    case h_3 input' hne hsome =>
      cases hinput.symm.trans hsome
      rfl

/-- A turn that ends the connection ends the run. -/
theorem runFrom_of_ended {ending : Ending} (hinput : input? r.result = some input)
    (hended : (take s failure? phase sends r.peer input).phase = .ended ending) :
    runFrom s failure? phase sends peer =
      { trace := r.trace ++ (take s failure? phase sends r.peer input).trace
        ending := some ending
        time := r.peer.now } := by
  by_cases hoctets : ∃ octets, input = .octets octets
  · obtain ⟨octets, rfl⟩ := hoctets
    rw [runFrom_of_octets hphase hr hinput, hended, runFrom, Run.after, List.append_nil]
  · rw [runFrom_of_input hphase hr hinput fun octets heq => hoctets ⟨octets, heq⟩, hended]
    rfl

end Equations

/-! ### Turns without failures -/

/-- If no send fails, all actions are performed. -/
theorem perform_none (sends : Nat) (actions : List Action) :
    (perform none sends actions).events = actions.map Action.event ∧
      (perform none sends actions).failure? = none := by
  induction actions generalizing sends with
  | nil => exact ⟨rfl, rfl⟩
  | cons action actions ih =>
    cases action with
    | log notice =>
      obtain ⟨hevents, hfailure⟩ := ih sends
      exact ⟨congrArg (Event.logged notice :: ·) hevents, hfailure⟩
    | close =>
      obtain ⟨hevents, hfailure⟩ := ih sends
      exact ⟨congrArg (Event.closed :: ·) hevents, hfailure⟩
    | send octets =>
      obtain ⟨hevents, hfailure⟩ := ih (sends + 1)
      exact ⟨congrArg (Event.sent octets :: ·) hevents, hfailure⟩

/-- Without a failure a turn comes out as it is. -/
theorem take_none (s : Settings) (phase : Phase) (sends : Nat) (peer : Peer) (input : Input) :
    (take s none phase sends peer input).phase =
        (step s peer.now peer.isStopping phase input).phase ∧
      (take s none phase sends peer input).trace =
        shown peer.now (step s peer.now peer.isStopping phase input).actions := by
  obtain ⟨hevents, hfailure⟩ :=
    perform_none sends (step s peer.now peer.isStopping phase input).actions
  unfold take
  dsimp only
  rw [hfailure, hevents, Trace.stamp, List.map_map]
  exact ⟨rfl, rfl⟩

/-- Without a failure, earlier sends make no difference. -/
theorem runFrom_none (s : Settings) (phase : Phase) (sends sends' : Nat) (peer : Peer) :
    runFrom s none phase sends peer = runFrom s none phase sends' peer := by
  induction hn : peer.script.length using Nat.strongRecOn generalizing phase sends sends' peer with
  | ind n ih =>
    by_cases hended : ∃ ending, phase = .ended ending
    · obtain ⟨ending, rfl⟩ := hended
      rw [runFrom, runFrom]
    have hphase : ∀ ending, phase ≠ .ended ending := fun ending hphase => hended ⟨ending, hphase⟩
    cases hinput : input? (peer.read (patience phase)).result with
    | none => rw [runFrom_of_forever hphase rfl hinput, runFrom_of_forever hphase rfl hinput]
    | some input =>
      obtain ⟨htook, hshown⟩ := take_none s phase sends (peer.read (patience phase)).peer input
      obtain ⟨htook', hshown'⟩ := take_none s phase sends' (peer.read (patience phase)).peer input
      by_cases hoctets : ∃ octets, input = .octets octets
      · obtain ⟨octets, rfl⟩ := hoctets
        rw [runFrom_of_octets hphase rfl hinput, runFrom_of_octets hphase rfl hinput, htook, htook',
          hshown, hshown', ih _ (hn ▸ Peer.length_read_script_lt (input?_eq_octets hinput)) _ _ _ _
          rfl]
      · have hnot := fun octets h => hoctets ⟨octets, h⟩
        rw [runFrom_of_input hphase rfl hinput hnot, runFrom_of_input hphase rfl hinput hnot, htook,
          htook', hshown, hshown']

/-! ### Waits -/

/-- The run comes to wait in a phase: what has happened until then, the phase, and the peer. -/
inductive Reaches (s : Settings) (p : Peer) : Trace → Phase → Peer → Prop
  | start : Reaches s p [] (Connection.start s p.now) p
  | turn {trace : Trace} {phase : Phase} {peer : Peer} {r : Reading} {octets : Bytes}
      {turn : Turn} :
      Reaches s p trace phase peer → (∀ ending, phase ≠ .ended ending) →
      peer.read (patience phase) = r → input? r.result = some (.octets octets) →
      step s r.peer.now r.peer.isStopping phase (.octets octets) = turn →
        Reaches s p (trace ++ (r.trace ++ shown r.peer.now turn.actions)) turn.phase r.peer

/-- A run is what has happened until it comes to wait, and the run from there. -/
theorem Reaches.run_eq (h : Reaches s p trace phase peer) :
    ∃ sends, run s none p = (runFrom s none phase sends peer).after trace := by
  induction h with
  | start => exact ⟨0, rfl⟩
  | @turn trace phase peer r octets turn _ hphase hr hinput hturn ih =>
    obtain ⟨sends, hrun⟩ := ih
    obtain ⟨htook, hshown⟩ := take_none s phase sends r.peer (.octets octets)
    rw [hturn] at htook hshown
    refine ⟨(take s none phase sends r.peer (.octets octets)).sends, ?_⟩
    rw [hrun, runFrom_of_octets hphase hr hinput, htook, hshown]
    exact congrArg (fun trace => Run.mk trace _ _) (List.append_assoc _ _ _).symm

/-- One wait comes after another one. -/
inductive Next (s : Settings) : Trace × Phase × Peer → Trace × Phase × Peer → Prop
  | turn {trace : Trace} {phase : Phase} {peer : Peer} {r : Reading} {octets : Bytes}
      {turn : Turn} :
      (∀ ending, phase ≠ .ended ending) →
      peer.read (patience phase) = r → input? r.result = some (.octets octets) →
      step s r.peer.now r.peer.isStopping phase (.octets octets) = turn →
        Next s (trace, phase, peer)
          (trace ++ (r.trace ++ shown r.peer.now turn.actions), turn.phase, r.peer)

/-- At most one wait comes after another one. -/
theorem rightUnique_next : Relator.RightUnique (Next s) := by
  rintro w w' w'' ⟨-, rfl, hinput, rfl⟩ ⟨-, rfl, hinput', rfl⟩
  cases hinput.symm.trans hinput'
  rfl

/-- What a run comes to, it comes to wait by wait. -/
theorem Reaches.reflTransGen (h : Reaches s p trace phase peer) :
    Relation.ReflTransGen (Next s) ([], Connection.start s p.now, p) (trace, phase, peer) := by
  induction h with
  | start => exact .refl
  | turn _ hphase hr hinput hturn ih => exact ih.tail (.turn hphase hr hinput hturn)

/-- What has happened stays. -/
theorem isPrefix_of_reflTransGen {w w' : Trace × Phase × Peer}
    (h : Relation.ReflTransGen (Next s) w w') : w.1 <+: w'.1 := by
  induction h with
  | refl => exact List.prefix_rfl
  | tail _ hnext ih =>
    obtain ⟨-, -, -, -⟩ := hnext
    exact ih.trans (List.prefix_append _ _)

/-- What is read at a wait is part of what has happened at every later one. -/
theorem eq_or_isPrefix_of_reflTransGen {w w' : Trace × Phase × Peer}
    (h : Relation.ReflTransGen (Next s) w w') :
    w = w' ∨ w.1 ++ (w.2.2.read (patience w.2.1)).trace <+: w'.1 := by
  obtain rfl | ⟨w'', hnext, hrest⟩ := h.cases_head
  · exact .inl rfl
  refine .inr (List.IsPrefix.trans ?_ (isPrefix_of_reflTransGen hrest))
  obtain ⟨-, rfl, -, -⟩ := hnext
  exact ⟨_, List.append_assoc _ _ _⟩

/-- **A run waits once at a time**: of two waits, one comes after what is read at the other one. -/
theorem Reaches.eq_or_isPrefix {trace' : Trace} {phase' : Phase} {peer' : Peer}
    (h : Reaches s p trace phase peer) (h' : Reaches s p trace' phase' peer') :
    (trace = trace' ∧ phase = phase' ∧ peer = peer') ∨
      trace ++ (peer.read (patience phase)).trace <+: trace' ∨
        trace' ++ (peer'.read (patience phase')).trace <+: trace := by
  rcases Relation.ReflTransGen.total_of_right_unique rightUnique_next h.reflTransGen h'.reflTransGen
    with hlater | hlater
  · obtain heq | hprefix := eq_or_isPrefix_of_reflTransGen hlater
    · cases heq
      exact .inl ⟨rfl, rfl, rfl⟩
    · exact .inr (.inl hprefix)
  · obtain heq | hprefix := eq_or_isPrefix_of_reflTransGen hlater
    · cases heq
      exact .inl ⟨rfl, rfl, rfl⟩
    · exact .inr (.inr hprefix)

/-- Something is done in a turn that follows a wait: what has happened before, and what is done. -/
inductive Does (s : Settings) (p : Peer) : Trace → Stamped → Prop
  | turn {trace : Trace} {phase : Phase} {peer : Peer} {r : Reading} {input : Input} {turn : Turn}
      {front back : List Action} {action : Action} :
      Reaches s p trace phase peer → (∀ ending, phase ≠ .ended ending) →
      peer.read (patience phase) = r → input? r.result = some input →
      step s r.peer.now r.peer.isStopping phase input = turn →
      turn.actions = front ++ action :: back →
        Does s p (trace ++ (r.trace ++ shown r.peer.now front)) ⟨r.peer.now, action.event⟩

/-- What is in two lists is in the first one or in the second one. -/
theorem split_of_append_eq {α : Type} {first second before after : List α} {a : α}
    (h : first ++ second = before ++ a :: after) :
    (∃ middle, first = before ++ a :: middle) ∨
      ∃ middle, before = first ++ middle ∧ second = middle ++ a :: after := by
  rcases List.append_eq_append_iff.1 h with ⟨middle, hbefore, hsecond⟩ | ⟨middle, rfl, hrest⟩
  · exact .inr ⟨middle, hbefore, hsecond⟩
  cases middle with
  | nil => exact .inr ⟨[], by rw [List.append_nil, List.append_nil], hrest.symm⟩
  | cons a' middle =>
    obtain ⟨rfl, -⟩ := List.cons.inj hrest
    exact .inl ⟨middle, rfl⟩

/-- What happens from a wait on, and not on the side of the peer, is done in a turn. -/
theorem Reaches.does_of_runFrom (h : Reaches s p trace phase peer) (sends : Nat)
    {before after : Trace} {stamped : Stamped}
    (htrace : (runFrom s none phase sends peer).trace = before ++ stamped :: after)
    (hpeer : ¬ stamped.event.isOfPeer) : Does s p (trace ++ before) stamped := by
  induction hn : peer.script.length using Nat.strongRecOn
    generalizing trace phase peer sends before with
  | ind n ih =>
    by_cases hended : ∃ ending, phase = .ended ending
    · obtain ⟨ending, rfl⟩ := hended
      rw [runFrom] at htrace
      exact absurd htrace.symm (List.append_ne_nil_of_right_ne_nil _ (List.cons_ne_nil _ _))
    have hphase : ∀ ending, phase ≠ .ended ending := fun ending hphase => hended ⟨ending, hphase⟩
    have hread : ∀ {middle}, (peer.read (patience phase)).trace ≠ before ++ stamped :: middle := by
      intro middle hmem
      exact hpeer (Peer.isOfPeer_of_mem_read (hmem ▸ List.mem_append_cons_self))
    cases hinput : input? (peer.read (patience phase)).result with
    | none =>
      rw [runFrom_of_forever hphase rfl hinput] at htrace
      exact absurd htrace hread
    | some input =>
      -- what is done in the turn that follows the read
      have hturn : ∀ {middle after'},
          (take s none phase sends (peer.read (patience phase)).peer input).trace =
            middle ++ stamped :: after' →
          Does s p (trace ++ ((peer.read (patience phase)).trace ++ middle)) stamped := by
        intro middle after' hshown
        rw [(take_none s phase sends _ input).2] at hshown
        obtain ⟨front, action, back, hactions, rfl, rfl⟩ := exists_action_of_shown hshown
        exact .turn h hphase rfl hinput rfl hactions
      by_cases hoctets : ∃ octets, input = .octets octets
      · obtain ⟨octets, rfl⟩ := hoctets
        rw [runFrom_of_octets hphase rfl hinput, Run.after, List.append_assoc] at htrace
        obtain ⟨_, hmem⟩ | ⟨middle, rfl, hmiddle⟩ := split_of_append_eq htrace
        · exact absurd hmem hread
        obtain ⟨_, hshown⟩ | ⟨middle, rfl, hrest⟩ := split_of_append_eq hmiddle
        · exact hturn hshown
        obtain ⟨htook, hshown⟩ := take_none s phase sends (peer.read (patience phase)).peer
          (.octets octets)
        rw [htook] at hrest
        have hlater := ih _ (hn ▸ Peer.length_read_script_lt (input?_eq_octets hinput))
          (h.turn hphase rfl hinput rfl) _ hrest rfl
        rwa [hshown, ← List.append_assoc (peer.read (patience phase)).trace, ← List.append_assoc]
      · have hnot := fun octets h => hoctets ⟨octets, h⟩
        rw [runFrom_of_input hphase rfl hinput hnot] at htrace
        obtain ⟨_, hmem⟩ | ⟨middle, rfl, hshown⟩ := split_of_append_eq htrace
        · exact absurd hmem hread
        · exact hturn hshown

/-- **What is not done by the peer is done in a turn** that follows a wait. -/
theorem does_of_run {before after : Trace} {stamped : Stamped}
    (htrace : (run s none p).trace = before ++ stamped :: after)
    (hpeer : ¬ stamped.event.isOfPeer) : Does s p before stamped :=
  Reaches.start.does_of_runFrom 0 htrace hpeer

end Session

end HttpEcho
