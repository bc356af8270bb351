import HttpEcho.Connection
import HttpEcho.Peer

/-!
# Sessions

A session is a connection together with its peer: `Session.run` lets the two run until the
connection ends, and gives the trace of what happened. `Session.Source` and `Session.respond` let
a body or an exchange alone read from a peer.

Only a body can be waited for without end, so a run without an ending is one whose peer hangs in
the middle of a body.
-/

namespace HttpEcho

/-- From which send on sending fails, counted from 1, and how. -/
structure SendFailure where
  first : Nat
  kind : FaultKind
  deriving DecidableEq, Repr

namespace Session

open Connection

/-- What comes of performing actions: the events, the number of sends so far, and the failure that
ended them early. -/
structure Performed where
  events : List Event
  sends : Nat
  failure? : Option FaultKind
  deriving DecidableEq, Repr

/-- Put an event in front. -/
def Performed.after (p : Performed) (event : Event) : Performed :=
  { p with events := event :: p.events }

/-- Perform actions after `sends` earlier sends. The first send that fails ends them. -/
def perform (failure? : Option SendFailure) : Nat → List Action → Performed
  | sends, [] => { events := [], sends, failure? := none }
  | sends, .log notice :: rest => (perform failure? sends rest).after (.logged notice)
  | sends, .close :: rest => (perform failure? sends rest).after .closed
  | sends, .send octets :: rest =>
    match failure?.filter fun f => f.first ≤ sends + 1 with
    | some f => { events := [.sendFailed f.kind], sends := sends + 1, failure? := some f.kind }
    | none => (perform failure? (sends + 1) rest).after (.sent octets)

/-- A run: what happened, how it ended if it did, and the time at the end. -/
structure Run where
  trace : Trace
  ending : Option Ending
  time : Nat
  deriving DecidableEq, Repr

/-- Put a trace in front. -/
def Run.after (r : Run) (trace : Trace) : Run := { r with trace := trace ++ r.trace }

/-- A run as it is seen up to a time. -/
def Run.seenUntil (time : Nat) (r : Run) : Run :=
  { trace := r.trace.upTo time
    ending := if r.time ≤ time then r.ending else none
    time := if r.ending.isSome && r.time ≤ time then r.time else time }

/-- How long a connection waits in a phase. -/
def patience : Phase → Patience
  | .idle _ deadline => { deadline := some deadline, idle := true }
  | .head deadline _ => { deadline := some deadline, idle := false }
  | .body .. | .ended _ => { deadline := none, idle := false }

/-- What the result of a read is to the connection; nothing, if it never comes. -/
def input? : Except Silence Arrival → Option Input
  | .ok (.octets octets) => some (.octets octets)
  | .ok .endOfInput => some .endOfInput
  | .ok (.failure kind) => some (.failure kind)
  | .error .deadline => some .deadline
  | .error .stop => some .stop
  | .error .forever => none

theorem input?_eq_octets {result : Except Silence Arrival} {octets : Bytes}
    (h : input? result = some (.octets octets)) : result = .ok (.octets octets) := by
  unfold input? at h
  split at h <;> simp_all

/-- How a phase ended the connection. -/
def ending? : Phase → Option Ending
  | .ended ending => some ending
  | _ => none

/-- A turn of the connection as it comes out: what happened, the phase after it, and the number of
sends so far. -/
structure Took where
  trace : Trace
  phase : Phase
  sends : Nat
  deriving DecidableEq, Repr

/-- Let the connection take its turn at the time of the peer. A failing send ends it. -/
def take (s : Settings) (failure? : Option SendFailure) (phase : Phase) (sends : Nat)
    (peer : Peer) (input : Input) : Took :=
  let turn := step s peer.now peer.isStopping phase input
  let done := perform failure? sends turn.actions
  { trace := .stamp peer.now done.events
    phase := match done.failure? with
      | some kind => .ended (.failed kind.fault)
      | none => turn.phase
    sends := done.sends }

/-- The run from a phase on, after a number of sends. Only octets let a connection go on; whatever
else comes ends it. -/
def runFrom (s : Settings) (failure? : Option SendFailure) (phase : Phase) (sends : Nat)
    (peer : Peer) : Run :=
  match phase with
  | .ended ending => { trace := [], ending := some ending, time := peer.now }
  | phase =>
    let r := peer.read (patience phase)
    match _hi : input? r.result with
    | none => { trace := r.trace, ending := none, time := r.peer.now }
    | some (.octets octets) =>
      let took := take s failure? phase sends r.peer (.octets octets)
      (runFrom s failure? took.phase took.sends r.peer).after (r.trace ++ took.trace)
    | some input =>
      let took := take s failure? phase sends r.peer input
      { trace := r.trace ++ took.trace, ending := ending? took.phase, time := r.peer.now }
termination_by peer.script.length
decreasing_by exact Peer.length_read_script_lt (input?_eq_octets _hi)

/-- The run of a connection with its peer. -/
def run (s : Settings) (failure? : Option SendFailure) (peer : Peer) : Run :=
  runFrom s failure? (start s peer.now) 0 peer

/-! ### Reading a body alone -/

/-- What one call for the next chunk of a body gives. -/
inductive Chunk where
  | chunk (octets : Bytes)
  | complete
  | failed (error : BodyError)
  /-- The peer hangs. -/
  | never
  deriving DecidableEq, Repr

/-- A body, the octets at hand, and the peer that sends more. -/
structure Source where
  body : Body
  buffer : Bytes
  peer : Peer
  deriving DecidableEq, Repr

/-- What a call gives, what happened during it, and the state after it. -/
structure Call where
  result : Chunk
  trace : Trace
  source : Source
  deriving DecidableEq, Repr

/-- Put a trace in front. -/
def Call.after (c : Call) (trace : Trace) : Call := { c with trace := trace ++ c.trace }

/-- The next chunk of a body. More is read only if what is at hand does not do. -/
def Source.next (source : Source) : Call :=
  let a := source.body.advance source.buffer
  let after (peer : Peer) (buffer : Bytes) : Source := { body := a.body, buffer, peer }
  match a.outcome with
  | .chunk octets =>
    { result := .chunk octets, trace := [], source := after source.peer a.rest }
  | .complete => { result := .complete, trace := [], source := after source.peer a.rest }
  | .refused error => { result := .failed error, trace := [], source := after source.peer a.rest }
  | .wait =>
    let r := source.peer.read { deadline := none, idle := false }
    match _hr : r.result with
    | .ok (.octets octets) => (Source.next (after r.peer (a.rest ++ octets))).after r.trace
    | .ok .endOfInput =>
      { result := .failed .unexpectedEof, trace := r.trace, source := after r.peer a.rest }
    | .ok (.failure kind) =>
      { result := .failed (.io kind.fault), trace := r.trace, source := after r.peer a.rest }
    | .error _ => { result := .never, trace := r.trace, source := after r.peer a.rest }
termination_by source.peer.script.length
decreasing_by exact Peer.length_read_script_lt _hr

/-- A measure that falls with every chunk: the octets at hand and to come, and one more for a body
that is not complete. -/
def Source.measure (source : Source) : Nat :=
  source.body.measure source.buffer + scriptSize source.peer.script

/-- A call that gives a chunk lowers the measure. -/
theorem Source.measure_next {source : Source} {octets : Bytes}
    (h : source.next.result = .chunk octets) : source.next.source.measure < source.measure := by
  fun_induction Source.next source with
  | case1 source a after octets ha =>
    have hlt : a.body.measure a.rest < source.body.measure source.buffer :=
      (source.body.advance_le source.buffer).2 octets ha
    simp only [measure, after]
    omega
  | case2 => simp at h
  | case3 => simp at h
  | case4 source a after ha r octets hr ih =>
    have hlt := ih h
    have hread : scriptSize r.peer.script + octets.length ≤ scriptSize source.peer.script :=
      Peer.scriptSize_read hr
    have hadv : a.rest.length ≤ source.buffer.length :=
      (source.body.advance_le source.buffer).1
    have hdone : source.body.phase ≠ .done := by
      intro hd
      have hstep : source.body.step source.buffer = .done := by
        unfold Body.step
        rw [hd]
      have : a.outcome = .complete := by
        simp only [a]
        unfold Body.advance
        split <;> simp_all
      rw [this] at ha
      simp at ha
    have hnext : (after r.peer (a.rest ++ octets)).measure
        ≤ a.rest.length + octets.length + 1 + scriptSize r.peer.script := by
      have := Body.measure_le a.body (a.rest ++ octets)
      rw [List.length_append] at this
      simp only [measure, after]
      omega
    have hhere : source.measure = source.buffer.length + 1 + scriptSize source.peer.script := by
      rw [measure, Body.measure, if_neg hdone]
    exact Nat.lt_of_lt_of_le hlt (by omega)
  | case5 => simp at h
  | case6 => simp at h
  | case7 => simp at h

/-- The calls that read a body up to its end: each gives a chunk but the last one. -/
def Source.all (source : Source) : List Call :=
  match _h : source.next.result with
  | .chunk _ => source.next :: Source.all source.next.source
  | _ => [source.next]
termination_by source.measure
decreasing_by exact Source.measure_next _h

/-- What reading a body to its end and dropping it gives. -/
inductive Drained where
  | octets (n : Nat)
  | failed (error : BodyError)
  | never
  deriving DecidableEq, Repr

/-- The octets that a call gives. -/
def Call.octets (c : Call) : Bytes :=
  match c.result with
  | .chunk octets => octets
  | _ => []

/-- Read a body to its end, and count its octets. -/
def Source.drain (source : Source) : Drained × Trace × Source :=
  let calls := source.all
  let last := calls.getLastD source.next
  let drained := match last.result with
    | .failed error => .failed error
    | .never => .never
    | _ => .octets (calls.flatMap Call.octets).length
  (drained, calls.flatMap Call.trace, last.source)

/-! ### An exchange alone -/

/-- The end of an exchange: its response or what stopped it, if it ends, what happened, the octets
that are left, and the peer as it is then. -/
structure Answer where
  result : Option (Except BodyError Response)
  trace : Trace
  rest : Bytes
  peer : Peer

/-- Put a trace in front. -/
def Answer.after (a : Answer) (trace : Trace) : Answer := { a with trace := trace ++ a.trace }

/-- Let an exchange read its body from a peer, and answer. -/
def respond (exchange : Exchange) (buffer : Bytes) (peer : Peer) : Answer :=
  let fed := exchange.feed buffer
  let logs := Trace.stamp peer.now (fed.notices.map .logged)
  match fed.progress with
  | .answered response => { result := some (.ok response), trace := logs, rest := fed.rest, peer }
  | .refused error => { result := some (.error error), trace := logs, rest := fed.rest, peer }
  | .waiting exchange =>
    let r := peer.read { deadline := none, idle := false }
    let trace := logs ++ r.trace
    match _hr : r.result with
    | .ok (.octets octets) => (respond exchange (fed.rest ++ octets) r.peer).after trace
    | .ok .endOfInput =>
      { result := some (.error .unexpectedEof), trace, rest := fed.rest, peer := r.peer }
    | .ok (.failure kind) =>
      { result := some (.error (.io kind.fault)), trace, rest := fed.rest, peer := r.peer }
    | .error _ => { result := none, trace, rest := fed.rest, peer := r.peer }
termination_by peer.script.length
decreasing_by exact Peer.length_read_script_lt _hr

end Session

end HttpEcho
