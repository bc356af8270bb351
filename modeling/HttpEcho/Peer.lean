import HttpEcho.Trace

/-!
# Peers

The other side of a connection follows a script of moves: it sends octets, lets time pass, closes
its side, or makes reading fail. The clock is virtual and stands still except while nothing
arrives. `Peer.read` is one read of the server: it waits for the next thing that arrives, unless a
deadline or, on an idle connection, a stop of the server comes first. What arrives at the very
time of the deadline still counts.
-/

namespace HttpEcho

/-- A move of the peer. -/
inductive Move where
  /-- Send octets, which arrive in one read. A read passes over a move without octets. -/
  | send (octets : Bytes)
  /-- Let milliseconds pass; they count from the first read that waits for this move. -/
  | wait (ms : Nat)
  /-- Be seen as closed by one read. -/
  | close
  /-- Make one read fail. -/
  | fail (kind : FaultKind)
  /-- Do nothing any more. -/
  | hang
  /-- Tell the server to stop, and let one millisecond pass. -/
  | stopServer
  deriving DecidableEq, Repr

/-- The moves that are left, and the state of the connection as the server sees it. -/
structure Peer where
  /-- What the peer will do. After the last move it is closed for ever. -/
  script : List Move
  /-- The number of the next move. -/
  index : Nat := 0
  /-- The time. -/
  now : Nat := 0
  /-- The server was told to stop. -/
  stopped : Bool := false
  /-- The time at which the server will be told to stop from elsewhere. -/
  stopAt : Option Nat := none
  deriving DecidableEq, Repr

/-- How many octets a move sends. -/
def Move.size : Move → Nat
  | .send octets => octets.length
  | _ => 0

/-- How many octets a script sends. -/
def scriptSize : List Move → Nat
  | [] => 0
  | move :: rest => move.size + scriptSize rest

/-- What a read brings. -/
inductive Arrival where
  | octets (octets : Bytes)
  | endOfInput
  | failure (kind : FaultKind)
  deriving DecidableEq, Repr

/-- Why a read brings nothing. -/
inductive Silence where
  /-- The deadline has come. -/
  | deadline
  /-- The server was told to stop while the connection was idle. -/
  | stop
  /-- Nothing will ever arrive. -/
  | forever
  deriving DecidableEq, Repr

/-- How long a read waits. -/
structure Patience where
  /-- The time up to which it waits. -/
  deadline : Option Nat
  /-- The connection is idle, so that a stop of the server ends the wait. -/
  idle : Bool
  deriving DecidableEq, Repr

/-- What comes of a read. -/
structure Reading where
  result : Except Silence Arrival
  trace : Trace
  peer : Peer

/-- Put events in front of what a read gives. -/
def Reading.after (r : Reading) (trace : Trace) : Reading := { r with trace := trace ++ r.trace }

namespace Peer

/-- Whether the server has been told to stop by now. -/
def isStopping (p : Peer) : Bool := p.stopped || p.stopAt.any (· ≤ p.now)

/-- What ends a wait before `target`, and when; without a target nothing else does. A stop comes
before a deadline at the same time, and both have to come before the target. -/
def interruption? (p : Peer) (patience : Patience) (target : Option Nat) :
    Option (Silence × Nat) :=
  let before (t : Nat) : Bool := target.all (t < ·)
  let stop? := if patience.idle then (p.stopAt.map (max p.now)).filter before else none
  let deadline? := (patience.deadline.map (max p.now)).filter before
  match stop?, deadline? with
  | some s, some d => if s ≤ d then some (.stop, s) else some (.deadline, d)
  | some s, none => some (.stop, s)
  | none, some d => some (.deadline, d)
  | none, none => none

/-- The peer after its next move, of which `script` is left, at the given time. -/
def advance (p : Peer) (script : List Move) (now : Nat) : Peer :=
  { p with script, index := p.index + 1, now }

/-- A read of a peer that will make the moves of the list. -/
def readFrom (patience : Patience) : List Move → Peer → Reading
  | [], p =>
    { result := .ok .endOfInput, trace := .stamp p.now [.endOfInput],
      peer := { p with script := [] } }
  | .send octets :: rest, p =>
    let trace := Trace.stamp p.now [.received p.index]
    if octets.isEmpty then (readFrom patience rest (p.advance rest p.now)).after trace
    else { result := .ok (.octets octets), trace, peer := p.advance rest p.now }
  | .close :: rest, p =>
    { result := .ok .endOfInput, trace := .stamp p.now [.endOfInput],
      peer := p.advance rest p.now }
  | .fail kind :: rest, p =>
    { result := .ok (.failure kind), trace := .stamp p.now [.readFailed kind],
      peer := p.advance rest p.now }
  | .wait ms :: rest, p =>
    match p.interruption? patience (some (p.now + ms)) with
    | some (silence, time) =>
      { result := .error silence, trace := [],
        peer := { p with now := time, script := .wait (p.now + ms - time) :: rest } }
    | none => readFrom patience rest (p.advance rest (p.now + ms))
  | .hang :: rest, p =>
    match p.interruption? patience none with
    | some (silence, time) =>
      { result := .error silence, trace := [],
        peer := { p with now := time, script := .hang :: rest } }
    | none => { result := .error .forever, trace := [], peer := { p with script := .hang :: rest } }
  | .stopServer :: rest, p =>
    let asked := Trace.stamp p.now [.stopAsked]
    let stopped := { p with stopped := true }
    if patience.idle then
      { result := .error (if patience.deadline.any (· ≤ p.now) then .deadline else .stop),
        trace := asked, peer := stopped.advance rest p.now }
    else
      match stopped.interruption? patience (some (p.now + 1)) with
      | some (silence, time) =>
        { result := .error silence, trace := asked,
          peer := { stopped with now := time, script := .wait (p.now + 1 - time) :: rest } }
      | none => (readFrom patience rest (stopped.advance rest (p.now + 1))).after asked

/-- One read of the server. -/
def read (p : Peer) (patience : Patience) : Reading := readFrom patience p.script p

theorem length_readFrom_script_lt {patience : Patience} {script : List Move} {p : Peer}
    {octets : Bytes} (h : (readFrom patience script p).result = .ok (.octets octets)) :
    (readFrom patience script p).peer.script.length < script.length := by
  fun_induction readFrom patience script p with
  | case1 => simp at h
  | case2 rest p octets' _ _ ih => exact Nat.lt_succ_of_lt (ih h)
  | case3 => simp [advance]
  | case4 => simp at h
  | case5 => simp at h
  | case6 => simp at h
  | case7 ms rest p _ ih => exact Nat.lt_succ_of_lt (ih h)
  | case8 => simp at h
  | case9 => simp at h
  | case10 => simp at h
  | case11 => simp at h
  | case12 rest p _ _ _ _ ih => exact Nat.lt_succ_of_lt (ih h)

/-- A read that brings octets uses up at least one move. -/
theorem length_read_script_lt {patience : Patience} {p : Peer} {octets : Bytes}
    (h : (p.read patience).result = .ok (.octets octets)) :
    (p.read patience).peer.script.length < p.script.length :=
  length_readFrom_script_lt h

theorem scriptSize_readFrom {patience : Patience} {script : List Move} {p : Peer}
    {octets : Bytes} (h : (readFrom patience script p).result = .ok (.octets octets)) :
    scriptSize (readFrom patience script p).peer.script + octets.length ≤ scriptSize script := by
  fun_induction readFrom patience script p with
  | case1 => simp at h
  | case2 rest p octets' _ _ ih =>
    have := ih h
    simp only [scriptSize, Reading.after] at this ⊢
    omega
  | case3 rest p octets' _ _ =>
    simp only [Except.ok.injEq, Arrival.octets.injEq] at h
    subst h
    simp only [scriptSize, advance, Move.size]
    omega
  | case4 => simp at h
  | case5 => simp at h
  | case6 => simp at h
  | case7 ms rest p _ ih =>
    have := ih h
    simp only [scriptSize] at this ⊢
    omega
  | case8 => simp at h
  | case9 => simp at h
  | case10 => simp at h
  | case11 => simp at h
  | case12 rest p _ _ _ _ ih =>
    have := ih h
    simp only [scriptSize, Reading.after] at this ⊢
    omega

/-- The octets that a read brings are no longer to come. -/
theorem scriptSize_read {patience : Patience} {p : Peer} {octets : Bytes}
    (h : (p.read patience).result = .ok (.octets octets)) :
    scriptSize (p.read patience).peer.script + octets.length ≤ scriptSize p.script :=
  scriptSize_readFrom h

end Peer

end HttpEcho
