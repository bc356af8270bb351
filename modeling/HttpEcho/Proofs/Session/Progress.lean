import HttpEcho.Proofs.Session.Hearing
import HttpEcho.Proofs.Session.Rounds

/-!
# Progress

A session goes round its loops only as long as there is something left to read
(`Session.progresses_run`). It waits for a request with a deadline, and so it does for the rest of a
head; the wait is over by then, whatever the peer does. Only a read of a body has no deadline. It
never comes to an end if the peer hangs (`Peer.hangs_iff`), and this is the only way in which a
session does not end (`Session.isSome_ending_or_blocked`).
-/

namespace HttpEcho

open Connection

/-! ### Reads that bring nothing -/

/-- A read without a deadline passes over the move. -/
def Move.isQuiet : Move → Bool
  | .wait _ | .stopServer => true
  | .send octets => octets.isEmpty
  | .close | .fail _ | .hang => false

/-- A script that hangs before it does anything else. -/
inductive Hangs : List Move → Prop
  | hang {rest : List Move} : Hangs (.hang :: rest)
  | quiet {move : Move} {rest : List Move} : move.isQuiet → Hangs rest → Hangs (move :: rest)

/-- What a wait that brings nothing says about its patience and the script. -/
def Silence.Fits (patience : Patience) (script : List Move) : Silence → Prop
  | .deadline => patience.deadline.isSome
  | .stop => patience.idle
  | .forever => patience.deadline = none ∧ Hangs script

theorem Silence.Fits.cons {patience : Patience} {script : List Move} {move : Move}
    {silence : Silence} (h : silence.Fits patience script) (hquiet : move.isQuiet) :
    silence.Fits patience (move :: script) := by
  cases silence with
  | deadline | stop => exact h
  | forever => exact ⟨h.1, .quiet hquiet h.2⟩

namespace Peer

variable {p : Peer} {patience : Patience} {script : List Move} {deadline time : Nat}
  {silence : Silence}

/-- A wait is interrupted by a stop or by the deadline. -/
theorem fits_of_interruption? {target : Option Nat}
    (h : p.interruption? patience target = some (silence, time)) (script : List Move) :
    silence.Fits patience script := by
  revert h
  unfold interruption?
  cases p.stopAt <;> cases hdeadline : patience.deadline <;> cases hidle : patience.idle
  all_goals
    simp only [Option.map_none, Option.map_some, Option.filter_none, Option.filter_some, if_true,
      Bool.false_eq_true, if_false]
    grind [Silence.Fits]

/-- A wait with a deadline is interrupted by then. -/
theorem interruption?_le {target : Option Nat} (hdeadline : patience.deadline = some deadline)
    (hnow : p.now ≤ deadline) (h : p.interruption? patience target = some (silence, time)) :
    time ≤ deadline := by
  revert h
  unfold interruption?
  cases p.stopAt <;> cases patience.idle <;> cases target
  all_goals
    simp only [hdeadline, Option.map_none, Option.map_some, Option.filter_none, Option.filter_some,
      if_true, Bool.false_eq_true, if_false, Option.all_none, Option.all_some]
    grind

/-- A wait that nothing interrupts is over by the deadline. -/
theorem le_of_interruption?_none (hdeadline : patience.deadline = some deadline)
    (hnow : p.now ≤ deadline) (h : p.interruption? patience (some time) = none) :
    time ≤ deadline := by
  revert h
  unfold interruption?
  cases p.stopAt <;> cases patience.idle
  all_goals
    simp only [hdeadline, Option.map_none, Option.map_some, Option.filter_none, Option.filter_some,
      if_true, Bool.false_eq_true, if_false, Option.all_some]
    grind

/-- Nothing ends a wait without a deadline on a connection that is not idle. -/
theorem interruption?_of_endless (hdeadline : patience.deadline = none)
    (hidle : patience.idle = false) (target : Option Nat) :
    p.interruption? patience target = none := by
  unfold interruption?
  rw [hdeadline, hidle]
  rfl

theorem fits_readFrom (h : (readFrom patience script p).result = .error silence) :
    silence.Fits patience script := by
  fun_induction readFrom patience script p with
  | case1 | case3 | case4 | case5 => cases h
  | case2 octets rest p _ hempty ih => exact (ih h).cons hempty
  | case6 ms rest p _ _ hsome =>
    cases h
    exact fits_of_interruption? hsome _
  | case7 ms rest p _ ih => exact (ih h).cons rfl
  | case8 rest p _ _ hsome =>
    cases h
    exact fits_of_interruption? hsome _
  | case9 rest p hnone =>
    cases h
    refine ⟨Option.not_isSome_iff_eq_none.1 fun hdeadline => ?_, .hang⟩
    exact interruption?_ne_none hdeadline hnone
  | case10 rest p asked stopped hidle =>
    cases h
    split
    case isTrue hdue => exact Option.isSome_of_any hdue
    case isFalse => exact hidle
  | case11 rest p asked stopped _ _ _ hsome =>
    cases h
    exact fits_of_interruption? hsome _
  | case12 rest p asked stopped _ _ ih => exact (ih h).cons rfl

/-- **A read that brings nothing** has a deadline, or is for an idle connection, or the peer
hangs. -/
theorem fits_read (h : (p.read patience).result = .error silence) :
    silence.Fits patience p.script :=
  fits_readFrom h

theorem now_le_readFrom (hdeadline : patience.deadline = some deadline) (hnow : p.now ≤ deadline) :
    (readFrom patience script p).peer.now ≤ deadline := by
  fun_induction readFrom patience script p with
  | case1 | case3 | case4 | case5 | case9 | case10 => exact hnow
  | case2 octets rest p _ _ ih => exact ih hnow
  | case6 ms rest p _ _ hsome | case8 rest p _ _ hsome | case11 rest p _ _ _ _ _ hsome =>
    exact interruption?_le hdeadline hnow hsome
  | case7 ms rest p hnone ih | case12 rest p _ _ _ hnone ih =>
    exact ih (le_of_interruption?_none hdeadline hnow hnone)

/-- **A read with a deadline is over by then**, whatever the peer does. -/
theorem now_le_read (hdeadline : patience.deadline = some deadline) (hnow : p.now ≤ deadline) :
    (p.read patience).peer.now ≤ deadline :=
  now_le_readFrom hdeadline hnow

/-- A read without a deadline never comes to an end if the peer hangs. -/
theorem readFrom_of_hangs (hdeadline : patience.deadline = none) (hidle : patience.idle = false)
    (h : Hangs script) (p : Peer) : (readFrom patience script p).result = .error .forever := by
  have hnone := fun p target =>
    interruption?_of_endless (p := p) hdeadline hidle target
  induction h generalizing p with
  | hang => rw [readFrom, hnone]
  | @quiet move rest hquiet _ ih =>
    cases move with
    | send octets =>
      have hempty : octets.isEmpty := hquiet
      rw [readFrom, if_pos hempty]
      exact ih _
    | wait ms =>
      rw [readFrom, hnone]
      exact ih _
    | stopServer =>
      rw [readFrom, if_neg (Bool.eq_false_iff.1 hidle), hnone]
      exact ih _
    | close | fail | hang => cases hquiet

/-- **A read without a deadline never comes to an end** exactly if the peer hangs. -/
theorem hangs_iff (hdeadline : patience.deadline = none) (hidle : patience.idle = false) :
    Hangs p.script ↔ (p.read patience).result = .error .forever :=
  ⟨fun h => readFrom_of_hangs hdeadline hidle h p, fun h => (fits_read h).2⟩

end Peer

/-! ### Turns without octets -/

namespace Session

open Passage

variable {s : Settings} {phase : Phase} {peer : Peer} {deadline : Nat} {script : List Move}
  {α β : Type}

/-- Whatever comes instead of octets ends the connection. -/
theorem exists_ended_step {now : Nat} {stopping : Bool} {result : Except Silence Arrival}
    {input : Input} (hinput : input? result = some input)
    (hoctets : ∀ octets, input ≠ .octets octets)
    (hfits : ∀ silence, result = .error silence → silence.Fits (patience phase) script) :
    ∃ ending, (step s now stopping phase input).phase = .ended ending := by
  match result with
  | .ok (.octets octets) =>
    obtain rfl := Option.some.inj hinput
    exact absurd rfl (hoctets octets)
  | .ok .endOfInput | .ok (.failure kind) =>
    obtain rfl := Option.some.inj hinput
    cases phase <;> exact ⟨_, rfl⟩
  | .error .deadline =>
    obtain rfl := Option.some.inj hinput
    cases phase with
    | idle | head | ended => exact ⟨_, rfl⟩
    | body => cases hfits _ rfl
  | .error .stop =>
    obtain rfl := Option.some.inj hinput
    cases phase with
    | idle | ended => exact ⟨_, rfl⟩
    | head | body => cases hfits _ rfl
  | .error .forever => cases hinput

theorem isSome_ending?_take {input : Input} {ending : Ending} (failure? : Option SendFailure)
    (sends : Nat) (h : (step s peer.now peer.isStopping phase input).phase = .ended ending) :
    (ending? (take s failure? phase sends peer input).phase).isSome := by
  unfold take
  dsimp only
  split
  case h_1 => rfl
  case h_2 =>
    rw [h]
    rfl

/-- What is no input to the connection never comes. -/
theorem eq_forever_of_input?_none {result : Except Silence Arrival} (h : input? result = none) :
    result = .error .forever := by
  unfold input? at h
  split at h
  case h_6 => rfl
  all_goals cases h

/-- What is heard in a phase, and how the session halts if nothing is. -/
theorem meets_hear_or (s : Settings) (failure? : Option SendFailure) (phase : Phase) (sends : Nat)
    (peer : Peer) :
    (hear s failure? phase sends peer).Meets
      (fun _ peer' => peer' = (peer.read (patience phase)).peer ∧ peer'.script <:+ peer.script)
      fun h => h.OverBy (peer.read (patience phase)).peer.now ∨
        h = .blocked [] phase peer ∧ (patience phase).deadline = none ∧ Hangs peer.script := by
  have hfits : ∀ silence, (peer.read (patience phase)).result = .error silence →
      silence.Fits (patience phase) peer.script := fun _ => Peer.fits_read
  cases hinput : input? (peer.read (patience phase)).result with
  | none =>
    rw [hear_of_forever s failure? sends hinput]
    exact .inr ⟨rfl, hfits _ (eq_forever_of_input?_none hinput)⟩
  | some input =>
    by_cases hoctets : ∃ octets, input = .octets octets
    · obtain ⟨octets, rfl⟩ := hoctets
      rw [hear_of_octets s failure? sends hinput]
      exact ⟨rfl, (Peer.of_read_octets (input?_eq_octets hinput)).2⟩
    · have hnot := fun octets h => hoctets ⟨octets, h⟩
      obtain ⟨ending, hended⟩ := exists_ended_step (s := s) hinput hnot hfits
      rw [hear_of_input s failure? sends hinput hnot]
      exact .inl ⟨_, rfl, isSome_ending?_take failure? sends hended, Nat.le_refl _⟩

/-! ### Deadlines -/

/-- **A wait with a deadline is over by then**, with octets or with the session. -/
theorem meets_hear_by (s : Settings) (failure? : Option SendFailure) (sends : Nat)
    (hdeadline : (patience phase).deadline = some deadline) (hnow : peer.now ≤ deadline) :
    (hear s failure? phase sends peer).Meets (fun _ peer' => peer'.now ≤ deadline)
      (Halt.OverBy deadline) := by
  have hle := Peer.now_le_read hdeadline hnow
  refine (meets_hear_or s failure? phase sends peer).mono ?_ ?_
  · rintro _ _ ⟨rfl, -⟩
    exact hle
  · rintro h (hover | ⟨-, hnone, -⟩)
    · exact hover.mono hle
    · cases hnone.symm.trans hdeadline

/-- A turn that ends the connection ends the session at once. -/
theorem meets_conclude_ended {turn : Turn} {ending : Ending} (failure? : Option SendFailure)
    (h : turn.phase = .ended ending) (sends : Nat) (peer : Peer) {post : α → Peer → Prop} :
    (conclude failure? turn sends peer : Passage α).Meets post (Halt.OverBy peer.now) := by
  refine (meets_carryOut failure? turn.actions sends peer).bind (Halt.keeps_overBy _) ?_
  rintro _ _ peer' rfl
  exact ⟨_, rfl, h ▸ rfl, Nat.le_refl _⟩

/-- **A head is read by its deadline**, or the session is over by then. -/
theorem meets_heads_by (s : Settings) (failure? : Option SendFailure) (buffer : Bytes) (sends : Nat)
    (hnow : peer.now ≤ deadline) :
    ((heads s failure? deadline).run buffer sends peer).Meets (fun _ peer' => peer'.now ≤ deadline)
      (Halt.OverBy deadline) := by
  refine Rounds.meets_run (heads s failure? deadline) (fun _ peer' => peer'.now ≤ deadline)
    (Halt.keeps_overBy deadline) (fun buffer sends peer' hnow' => ?_) sends hnow
  change (headTurn s failure? deadline buffer sends peer').Meets _ _
  unfold headTurn
  split
  case h_1 => exact hnow'
  case h_2 =>
    exact Meets.map (meets_hear_by s failure? sends rfl hnow') (Halt.keeps_overBy deadline)
  case h_3 =>
    exact (meets_conclude_ended failure? rfl sends peer').mono (fun _ _ h => h)
      fun _ hover => hover.mono hnow'

/-- **A request begins by its deadline**, or the session is over by then; and it does not begin
after the deadline of its head. -/
theorem meets_awaitRequest_by (s : Settings) (failure? : Option SendFailure) (lap : Lap)
    (sends : Nat) (peer : Peer) :
    (awaitRequest s failure? lap sends peer).Meets
      (fun _ peer' => peer'.now ≤ lap.idleDeadline s peer.now ∧
        peer'.now ≤ lap.headDeadline s peer.now peer'.now)
      (Halt.OverBy (lap.idleDeadline s peer.now)) := by
  have hidle : peer.now ≤ lap.idleDeadline s peer.now := Nat.le_add_right _ _
  unfold awaitRequest
  split
  case isTrue =>
    refine (meets_hear_by s failure? sends rfl hidle).imp fun _ peer' hle => ⟨hle, ?_⟩
    unfold Lap.idleDeadline at hle
    unfold Lap.headDeadline
    by_cases hfirst : lap.first
    · rwa [if_pos hfirst] at hle ⊢
    · rw [if_neg hfirst]
      exact Nat.le_add_right _ _
  case isFalse =>
    refine ⟨hidle, ?_⟩
    unfold Lap.headDeadline
    rw [ite_self]
    exact Nat.le_add_right _ _

/-! ### Ends -/

/-- The session is over. -/
def Halt.IsOver (h : Halt) : Prop := ∃ run, h = .ended run ∧ run.ending.isSome

/-- What is over by a time is over. -/
theorem Halt.OverBy.isOver {h : Halt} {time : Nat} (hover : h.OverBy time) : h.IsOver := by
  obtain ⟨run, rfl, hending, -⟩ := hover
  exact ⟨run, rfl, hending⟩

theorem Halt.keeps_isOver : Halt.Keeps Halt.IsOver := by
  rintro h trace ⟨run, rfl, hending⟩
  exact ⟨_, rfl, hending⟩

/-- How a session may halt: it is over, or a read of a body waits for a peer that hangs. -/
def Halt.Proper (script : List Move) (h : Halt) : Prop :=
  h.IsOver ∨
    ∃ trace x buffer peer, h = .blocked trace (.body x buffer) peer ∧ Hangs peer.script ∧
      peer.script <:+ script

theorem Halt.keeps_proper (script : List Move) : Halt.Keeps (Halt.Proper script) := by
  rintro h trace (hover | ⟨trace', x, buffer, peer, rfl, hpeer⟩)
  · exact .inl (keeps_isOver h trace hover)
  · exact .inr ⟨_, x, buffer, peer, rfl, hpeer⟩

/-- A part of a session that halts only as it may, and leaves a peer with the end of a script. -/
def Passage.Proper (p : Passage α) (script : List Move) : Prop :=
  p.Meets (fun _ peer => peer.script <:+ script) (Halt.Proper script)

/-- A passage that halts only when the session is over halts only as it may. -/
theorem Passage.Proper.of_over {p : Passage α}
    (h : p.Meets (fun _ peer => peer.script <:+ script) Halt.IsOver) : p.Proper script :=
  h.mono (fun _ _ h => h) fun _ hover => .inl hover

/-- Passages that halt only as they may do so one after the other. -/
theorem Passage.Proper.bind {p : Passage α} {next : α → Nat → Peer → Passage β}
    (h : p.Proper script)
    (hnext : ∀ value sends peer, peer.script <:+ script → (next value sends peer).Proper script) :
    (p.bind next).Proper script :=
  Meets.bind h (Halt.keeps_proper script) hnext

theorem Passage.Proper.map {p : Passage α} (h : p.Proper script) (f : α → β) :
    (p.map f).Proper script :=
  h.bind fun _ _ _ hpeer => hpeer

/-- A loop halts only as it may if its turns do. -/
theorem Rounds.proper_run {σ : Type} (l : Rounds σ α)
    (hturn : ∀ state sends peer, peer.script <:+ script → (l.turn state sends peer).Proper script)
    (state : σ) (sends : Nat) (hpeer : peer.script <:+ script) :
    (l.run state sends peer).Proper script := by
  refine l.meets_run (fun _ peer' => peer'.script <:+ script) (Halt.keeps_proper script) ?_ sends
    hpeer
  intro state sends peer' hpeer'
  refine (hturn state sends peer' hpeer').imp ?_
  rintro (_ | _) _ hsuffix <;> exact hsuffix

/-- Carrying out actions halts only as it may. -/
theorem proper_carryOut (failure? : Option SendFailure) (actions : List Action) (sends : Nat)
    (hpeer : peer.script <:+ script) : (carryOut failure? actions sends peer).Proper script :=
  (meets_carryOut failure? actions sends peer).mono (fun _ _ heq => heq ▸ hpeer)
    fun _ hover => .inl hover.isOver

/-- A turn that ends the connection halts only as it may. -/
theorem proper_conclude {turn : Turn} {ending : Ending} (failure? : Option SendFailure)
    (h : turn.phase = .ended ending) (sends : Nat) (peer : Peer) :
    (conclude failure? turn sends peer : Passage α).Proper script :=
  (meets_conclude_ended failure? h sends peer).mono (fun _ _ h => h)
    fun _ hover => .inl hover.isOver

/-- A wait with a deadline is over. -/
theorem over_hear (s : Settings) (failure? : Option SendFailure) (sends : Nat)
    (hdeadline : (patience phase).deadline.isSome) (hpeer : peer.script <:+ script) :
    (hear s failure? phase sends peer).Meets (fun _ peer' => peer'.script <:+ script)
      Halt.IsOver := by
  refine (meets_hear_or s failure? phase sends peer).mono (fun _ _ h => h.2.trans hpeer) ?_
  rintro h (hover | ⟨-, hnone, -⟩)
  · exact hover.isOver
  · rw [hnone] at hdeadline
    cases hdeadline

/-- A wait for more of a body may have no end. -/
theorem proper_hear_body (s : Settings) (failure? : Option SendFailure) (x : Exchange)
    (buffer : Bytes) (sends : Nat) (hpeer : peer.script <:+ script) :
    (hear s failure? (.body x buffer) sends peer).Proper script := by
  refine (meets_hear_or s failure? _ sends peer).mono (fun _ _ h => h.2.trans hpeer) ?_
  rintro h (hover | ⟨rfl, -, hhangs⟩)
  · exact .inl hover.isOver
  · exact .inr ⟨[], x, buffer, peer, rfl, hhangs, hpeer⟩

/-- Reading a head halts only when the session is over. -/
theorem over_headTurn (s : Settings) (failure? : Option SendFailure) (deadline : Nat)
    (buffer : Bytes) (sends : Nat) (hpeer : peer.script <:+ script) :
    (headTurn s failure? deadline buffer sends peer).Meets (fun _ peer' => peer'.script <:+ script)
      Halt.IsOver := by
  unfold headTurn
  split
  case h_1 => exact hpeer
  case h_2 => exact Meets.map (over_hear s failure? sends rfl hpeer) Halt.keeps_isOver
  case h_3 =>
    exact (meets_conclude_ended failure? rfl sends peer).mono (fun _ _ h => h)
      fun _ hover => hover.isOver

/-- Reading a body halts only as it may. -/
theorem proper_bodyTurn (s : Settings) (failure? : Option SendFailure) (a : Answering) (sends : Nat)
    (hpeer : peer.script <:+ script) : (bodyTurn s failure? a sends peer).Proper script := by
  unfold bodyTurn
  split
  case h_1 actions rest _ => exact (proper_carryOut failure? actions sends hpeer).map _
  case h_2 actions x buffer _ =>
    refine (proper_carryOut failure? actions sends hpeer).bind fun _ sends peer' hpeer' => ?_
    exact (proper_hear_body s failure? x buffer sends hpeer').bind fun _ _ _ h => h
  case h_3 turn hbody hsettled =>
    obtain ⟨ending, hended⟩ := a.exists_ended hsettled hbody
    exact proper_conclude failure? hended sends peer

/-- A turn for a request halts only as it may. -/
theorem proper_requestTurn (s : Settings) (failure? : Option SendFailure) (lap : Lap) (sends : Nat)
    (hpeer : peer.script <:+ script) : (requestTurn s failure? lap sends peer).Proper script := by
  have hawait : (awaitRequest s failure? lap sends peer).Proper script := by
    unfold awaitRequest
    split
    case isTrue => exact .of_over (over_hear s failure? sends rfl hpeer)
    case isFalse => exact hpeer
  refine hawait.bind fun buffer sends peer' hpeer' => ?_
  refine Passage.Proper.bind ?_ fun parsed sends peer'' hpeer'' => ?_
  · refine Rounds.proper_run _ (fun buffer sends _ h => ?_) buffer sends hpeer'
    exact .of_over (over_headTurn s failure? _ buffer sends h)
  · refine Rounds.proper_run _ (fun a sends _ h => ?_) _ sends hpeer''
    exact proper_bodyTurn s failure? a sends h

/-- **A session halts only as it may.** -/
theorem proper_converse (s : Settings) (failure? : Option SendFailure) (peer : Peer) :
    (converse s failure? peer).Proper peer.script := by
  refine Meets.halted (Rounds.proper_run (requests s failure?) (fun lap sends peer' h => ?_) _ 0
    List.suffix_rfl)
  exact (proper_requestTurn s failure? lap sends h).map _

/-- A session ends, or it waits for more of a body from a peer that hangs. -/
theorem isSome_ending_or_blocked (s : Settings) (failure? : Option SendFailure) (peer : Peer) :
    (run s failure? peer).ending.isSome ∨
      ∃ trace x buffer peer', converse s failure? peer = .blocked trace (.body x buffer) peer' ∧
        Hangs peer'.script ∧ peer'.script <:+ peer.script := by
  rcases proper_converse s failure? peer with ⟨run, hover, hending⟩ | hblocked
  · rw [← run_converse, hover]
    exact .inl hending
  · exact .inr hblocked

/-! ### Progress -/

/-- **The loops of a session go round only as long as there is something left to read.** -/
structure Progresses (s : Settings) (failure? : Option SendFailure) : Prop where
  /-- A run is what the loops do. -/
  run_eq : ∀ peer, (converse s failure? peer).run = run s failure? peer
  /-- A turn of the loop for requests takes at least one octet from the front of what is at hand and
  to come, or the session does not get beyond it. -/
  request : ∀ lap sends peer, (requestTurn s failure? lap sends peer).Meets
    (fun rest peer' => rest ++ peer'.coming <:+ lap.buffer ++ peer.coming ∧
      (rest ++ peer'.coming).length < (lap.buffer ++ peer.coming).length)
    (Halt.Proper peer.script)
  /-- A turn of a loop that reads a head takes a move of the peer if the loop goes round, and else
  the head is there or the session is over. -/
  head : ∀ deadline buffer sends peer, (headTurn s failure? deadline buffer sends peer).Meets
    (fun next peer' => next.isLeft → peer'.script.length < peer.script.length) Halt.IsOver
  /-- A turn of a loop that reads a body takes a move of the peer if the loop goes round. -/
  body : ∀ a sends peer, (bodyTurn s failure? a sends peer).Meets
    (fun next peer' => next.isLeft → peer'.script.length < peer.script.length)
    (Halt.Proper peer.script)
  /-- The wait for a request is over by its deadline, and not after that of the head. -/
  idle_by : ∀ lap sends peer, (awaitRequest s failure? lap sends peer).Meets
    (fun _ peer' => peer'.now ≤ lap.idleDeadline s peer.now ∧
      peer'.now ≤ lap.headDeadline s peer.now peer'.now)
    (Halt.OverBy (lap.idleDeadline s peer.now))
  /-- A head is read by its deadline, or the session is over by then. -/
  head_by : ∀ deadline buffer sends peer, peer.now ≤ deadline →
    ((heads s failure? deadline).run buffer sends peer).Meets (fun _ peer' => peer'.now ≤ deadline)
      (Halt.OverBy deadline)
  /-- A peer hangs exactly if a read for a body, which has no deadline, never comes to an end. -/
  hangs : ∀ (x : Exchange) (buffer : Bytes) (peer : Peer),
    Hangs peer.script ↔ (peer.read (patience (.body x buffer))).result = .error .forever
  /-- A session ends, or it waits for more of a body from a peer that hangs. -/
  ends : ∀ peer, (run s failure? peer).ending.isSome ∨
    ∃ trace x buffer peer', converse s failure? peer = .blocked trace (.body x buffer) peer' ∧
      Hangs peer'.script ∧ peer'.script <:+ peer.script

/-- **A session always makes progress**, whatever the settings are and whatever the peer does, and
can only hang in a body. -/
theorem progresses_run (s : Settings) (failure? : Option SendFailure) : Progresses s failure? where
  run_eq := run_converse s failure?
  request lap sends peer :=
    ((proper_requestTurn s failure? lap sends List.suffix_rfl).and
      (meets_requestTurn s failure? lap sends peer)).imp fun _ _ h => h.2
  head deadline buffer sends peer := by
    refine ((over_headTurn s failure? deadline buffer sends List.suffix_rfl).and
      (meets_headTurn s failure? deadline buffer sends peer)).imp ?_
    rintro (buffer' | parsed) peer' ⟨-, hmeets⟩ hleft
    · exact hmeets.2
    · cases hleft
  body a sends peer := by
    refine ((proper_bodyTurn s failure? a sends List.suffix_rfl).and
      (meets_bodyTurn s failure? a sends peer)).imp ?_
    rintro (a' | rest) peer' ⟨-, hmeets⟩ hleft
    · exact hmeets.2
    · cases hleft
  idle_by lap sends peer := meets_awaitRequest_by s failure? lap sends peer
  head_by deadline buffer sends peer hnow := meets_heads_by s failure? buffer sends hnow
  hangs _ _ _ := Peer.hangs_iff rfl rfl
  ends := isSome_ending_or_blocked s failure?

end Session

end HttpEcho
