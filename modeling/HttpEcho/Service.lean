import HttpEcho.Session

/-!
# The accept loop

A service takes connections from its listener until it is told to stop. It serves at most a fixed
number at once: before each accept the loop takes a slot, and the slot goes to the connection that
is accepted, until that connection ends. A failed accept gives its slot back.

Connections run on their own (`Session.run`), each with a clock that begins when it is accepted;
what they share is the slots and the stop. `Service.run` gives which connections were accepted and
when, what each of them did, the log of the loop, and the moves of its slots.

The stop may come from elsewhere or from a peer, and then it depends on the runs of the
connections, which in turn depend on the stop. What happens before the first stop does not depend
on it, though: it is found by a run of the loop that hears of no stop by a peer.
-/

namespace HttpEcho

/-- A connection that the listener offers. -/
structure Visitor where
  /-- What the peer does. -/
  script : List Move
  /-- From when on sending to the peer fails. -/
  sendFailure? : Option SendFailure := none
  /-- How turning off the delay of small packets fails. -/
  noDelayFailure? : Option FaultKind := none
  /-- The server is told to stop at the moment at which the connection is accepted. -/
  stopsServer : Bool := false
  deriving DecidableEq, Repr

/-- The peer of a visitor that is accepted at time `now`, if its connection hears of a stop. A stop
at the moment of the accept is known from the start. -/
def Visitor.peer (v : Visitor) (heard? : Option Nat) (now : Nat) : Peer :=
  { script := v.script, stopped := v.stopsServer, stopAt := heard?.map (· - now) }

/-- What an accept gives. -/
inductive Offer where
  | connection (visitor : Visitor)
  /-- The accept fails. -/
  | fail (kind : FaultKind)
  /-- The accept waits for milliseconds before it goes on to the next offer. -/
  | wait (ms : Nat)
  deriving DecidableEq, Repr

/-! ### Slots -/

/-- The slots of a service: how many nobody has, how many the accept loop holds, and for each
connection in service the time at which it ends, if it does. -/
structure Slots where
  free : Nat
  held : Nat
  serving : List (Option Nat)
  deriving DecidableEq, Repr

namespace Slots

/-- All slots are free. -/
def fresh (n : Nat) : Slots := { free := n, held := 0, serving := [] }

/-- Whether a connection has ended by a time. -/
def hasEnded (now : Nat) (ending : Option Nat) : Bool := ending.any (· ≤ now)

/-- Free the slots of the connections that have ended by a time. -/
def release (now : Nat) (s : Slots) : Slots :=
  { s with
    free := s.free + s.serving.countP (hasEnded now)
    serving := s.serving.filter (!hasEnded now ·) }

/-- The time at which the next connection ends. -/
def nextEnd? (s : Slots) : Option Nat := (s.serving.filterMap id).min?

/-- What the accept loop does with a slot. -/
inductive Move where
  /-- It takes a free slot. -/
  | take
  /-- It gives its slot back. -/
  | giveBack
  /-- It hands its slot to a connection that ends at a time. -/
  | handOver (ending : Option Nat)
  deriving DecidableEq, Repr

/-- The slots after a move of the loop. -/
def after (s : Slots) : Move → Slots
  | .take => { s with free := s.free - 1, held := s.held + 1 }
  | .giveBack => { s with free := s.free + 1, held := s.held - 1 }
  | .handOver ending => { s with held := s.held - 1, serving := ending :: s.serving }

end Slots

/-! ### Stops -/

/-- A moment at which the server is told to stop, and the number of the connection whose peer tells
it; a stop from elsewhere has none. -/
structure Stop where
  time : Nat
  teller? : Option Nat
  deriving DecidableEq, Repr

namespace Stop

/-- How many connections have been accepted by a stop at least: those up to the one that tells. -/
def after (s : Stop) : Nat := s.teller?.elim 0 (· + 1)

/-- Whether a stop comes before another one. Of stops at one time, that of the earlier connection
comes first, and one from elsewhere before any of them. -/
def isBefore (a b : Stop) : Bool := a.time < b.time || (a.time = b.time && a.after < b.after)

/-- The first one of some stops. -/
def first? : List Stop → Option Stop
  | [] => none
  | a :: rest =>
    match first? rest with
    | none => some a
    | some b => some (if b.isBefore a then b else a)

/-- The time of the stop that a connection hears of. If its own peer tells the first one, that is
the next one after it by somebody else. -/
def heard? (stops : List Stop) (number : Nat) : Option Nat :=
  (first? stops).bind fun first =>
    if first.teller? = some number then
      (first? (stops.filter fun s => first.time < s.time && s.teller? ≠ some number)).map time
    else some first.time

end Stop

/-! ### Visits -/

/-- A connection that was accepted: its number among the connections offered, when it was accepted,
and its run, with times that count from then on. -/
structure Visit where
  number : Nat
  visitor : Visitor
  acceptedAt : Nat
  run : Session.Run
  deriving DecidableEq, Repr

namespace Visit

/-- The visit of a visitor whose connection hears of a stop, if of any, at the given time. -/
def ofVisitor (s : Settings) (heard? : Option Nat) (number now : Nat) (visitor : Visitor) : Visit :=
  { number, visitor, acceptedAt := now
    run := Session.run s visitor.sendFailure? (visitor.peer heard? now) }

/-- A visit as it is if its connection hears of a stop at the given time. -/
def hearing (s : Settings) (heard? : Option Nat) (v : Visit) : Visit :=
  ofVisitor s heard? v.number v.acceptedAt v.visitor

/-- The time at which a visit ends. -/
def endedAt? (v : Visit) : Option Nat := v.run.ending.map fun _ => v.acceptedAt + v.run.time

/-- The stops that the peer of a visit tells the server. -/
def stops (v : Visit) : List Stop :=
  let atAccept := if v.visitor.stopsServer then [Stop.mk v.acceptedAt (some v.number)] else []
  atAccept ++ v.run.trace.filterMap fun s =>
    if s.event = .stopAsked then some ⟨v.acceptedAt + s.time, some v.number⟩ else none

end Visit

namespace Service

/-- A move of the loop's slots, when it was made, and the slots after it. -/
structure Entry where
  time : Nat
  move : Slots.Move
  slots : Slots
  deriving DecidableEq, Repr

/-- What a service does. -/
structure Report where
  visits : List Visit
  /-- The log of the loop, with times. -/
  log : List (Nat × Notice)
  /-- The moves of the slots. Their connections end as they do if no peer tells the server to
  stop: the loop makes no move after that. -/
  ledger : List Entry
  /-- When the loop returned. -/
  returnedAt : Option Nat
  deriving DecidableEq, Repr

namespace Report

/-- A report of what is seen up to a time. -/
def seenUntil (time : Nat) (r : Report) : Report :=
  { visits := (r.visits.filter (·.acceptedAt ≤ time)).map fun v =>
      { v with run := v.run.seenUntil (time - v.acceptedAt) }
    log := r.log.filter (·.1 ≤ time)
    ledger := r.ledger.filter (·.time ≤ time)
    returnedAt := r.returnedAt.filter (· ≤ time) }

/-- The texts of the failures that ended connections, in alphabetical order. -/
def errors (r : Report) : List String :=
  (r.visits.filterMap fun v =>
    match v.run.ending with
    | some (.failed fault) => some fault.message
    | _ => none).mergeSort fun a b => a ≤ b

/-- Put notices of one time in front. -/
def afterLog (r : Report) (now : Nat) (notices : List Notice) : Report :=
  { r with log := notices.map (now, ·) ++ r.log }

/-- Put a visit in front. -/
def afterVisit (r : Report) (visit : Visit) : Report := { r with visits := visit :: r.visits }

/-- Put a move of the slots in front. -/
def afterMove (r : Report) (now : Nat) (move : Slots.Move) (slots : Slots) : Report :=
  { r with ledger := ⟨now, move, slots⟩ :: r.ledger }

end Report

/-- What waiting for a slot gives. -/
inductive Acquired where
  /-- A slot, the time, and the slots after it was taken. -/
  | slot (now : Nat) (slots : Slots)
  /-- The stop came first. -/
  | stopped (now : Nat)
  /-- No slot becomes free, and no stop comes. -/
  | never
  deriving DecidableEq, Repr

/-- Wait for a slot. -/
def acquire (stop? : Option Nat) (now : Nat) (slots : Slots) : Acquired :=
  if stop?.any (· ≤ now) then .stopped now
  else
    let slots := slots.release now
    if 0 < slots.free then .slot now (slots.after .take)
    else
      match slots.nextEnd?, stop? with
      | some free, some stop =>
        if stop ≤ free then .stopped stop else .slot free ((slots.release free).after .take)
      | some free, none => .slot free ((slots.release free).after .take)
      | none, some stop => .stopped stop
      | none, none => .never

/-- What is fixed while a service runs: its settings, its own address, how peers are called, and
when it is told to stop from elsewhere. -/
structure Context where
  settings : Settings
  address : String
  peerName : Nat → String
  stop? : Option Nat

namespace Context

/-- The stops that come while visits go on. -/
def stops (c : Context) (visits : List Visit) : List Stop :=
  c.stop?.toList.map (⟨·, none⟩) ++ visits.flatMap Visit.stops

/-- When the loop is told to stop, after it has accepted a number of connections: by the first
stop, unless a connection that is still to be accepted tells it. -/
def told? (c : Context) (first? : Option Stop) (number : Nat) : Option Nat :=
  match first?.filter (·.after ≤ number) with
  | some first => some first.time
  | none => c.stop?

/-- The notices of an accept. -/
def welcome (c : Context) (number : Nat) (visitor : Visitor) : List Notice :=
  .newConnection (c.peerName number) ::
    match visitor.noDelayFailure? with
    | none => []
    | some kind => [.noDelayFailed kind.fault]

end Context

/-- The loop returns. -/
def stopped (c : Context) (now : Nat) : Report :=
  { visits := [], log := [(now, .serverStopped c.address)], ledger := [], returnedAt := some now }

/-- The loop waits for ever. -/
def waiting : Report := { visits := [], log := [], ledger := [], returnedAt := none }

/-- Take a slot, and go on with it. -/
def withSlot (c : Context) (stop? : Option Nat) (now : Nat) (slots : Slots)
    (goOn : Nat → Slots → Report) : Report :=
  match acquire stop? now slots with
  | .stopped now => stopped c now
  | .never => waiting
  | .slot now slots => (goOn now slots).afterMove now .take slots

/-- The loop with a slot in its hand, from a time on: it waits for the next connection. `number`
counts the connections accepted so far. Visits go on as if no peer told the server to stop. -/
def accept (c : Context) (first? : Option Stop) : List Offer → Nat → Nat → Slots → Report
  | [], number, _, _ =>
    match c.told? first? number with
    | some stop => stopped c stop
    | none => waiting
  | .wait ms :: rest, number, now, slots =>
    match (c.told? first? number).filter (· ≤ now + ms) with
    | some stop => stopped c stop
    | none => accept c first? rest number (now + ms) slots
  | .fail kind :: rest, number, now, slots =>
    let slots := slots.after .giveBack
    let next := withSlot c (c.told? first? number) now slots (accept c first? rest number)
    (next.afterLog now [.acceptFailed kind.fault]).afterMove now .giveBack slots
  | .connection visitor :: rest, number, now, slots =>
    let visit := Visit.ofVisitor c.settings c.stop? number now visitor
    let move := Slots.Move.handOver visit.endedAt?
    let slots := slots.after move
    let next := withSlot c (c.told? first? (number + 1)) now slots
      (accept c first? rest (number + 1))
    ((next.afterVisit visit).afterLog now (c.welcome number visitor)).afterMove now move slots

/-- The loop from its start. -/
def loop (c : Context) (first? : Option Stop) (offers : List Offer) : Report :=
  withSlot c (c.told? first? 0) 0 (.fresh c.settings.maxConnections) (accept c first? offers 0)

/-- Let the connections hear of the first stop. The connection whose peer tells it goes on as it
did, until it hears of another one. -/
def spread (c : Context) (first : Stop) (visits : List Visit) : List Visit :=
  let told := visits.map fun v =>
    if first.teller? = some v.number then v else v.hearing c.settings (some first.time)
  told.map fun v => v.hearing c.settings (Stop.heard? (c.stops told) v.number)

/-- Run a service on the offers of its listener. -/
def run (c : Context) (offers : List Offer) : Report :=
  let first? := Stop.first? (c.stops (loop c none offers).visits)
  let report := loop c first? offers
  let visits := match first? with
    | none => report.visits
    | some first => spread c first report.visits
  { report with visits }.afterLog 0 [.listening c.address]

end Service

end HttpEcho
