import HttpEcho.Notice

/-!
# Traces

What can be seen of a connection from outside, in order and with the time at which it happened.
-/

namespace HttpEcho

/-- Something that happens on a connection. -/
inductive Event where
  /-- Octets were received; they are those of the peer's move with this number. -/
  | received (move : Nat)
  /-- The peer had closed its side when more was read. -/
  | endOfInput
  /-- Reading failed. -/
  | readFailed (kind : FaultKind)
  /-- The server was told to stop. -/
  | stopAsked
  /-- Octets were sent. -/
  | sent (octets : Bytes)
  /-- Sending failed. -/
  | sendFailed (kind : FaultKind)
  /-- The sending side was closed. -/
  | closed
  /-- Something was logged. -/
  | logged (notice : Notice)
  deriving DecidableEq, Repr

/-- An event and its time, in milliseconds. -/
structure Stamped where
  time : Nat
  event : Event
  deriving DecidableEq, Repr

/-- What happened, in order. -/
abbrev Trace := List Stamped

namespace Trace

/-- Events that happen one after the other at one time. -/
def stamp (time : Nat) (events : List Event) : Trace := events.map (Stamped.mk time)

/-- What happened up to a time, that time included. -/
def upTo (time : Nat) (trace : Trace) : Trace := trace.filter fun s => s.time ≤ time

/-- The events alone. -/
def events (trace : Trace) : List Event := trace.map Stamped.event

/-- The octets that were sent, one string for each time. -/
def sends (trace : Trace) : List Bytes :=
  trace.events.filterMap fun
    | .sent octets => some octets
    | _ => none

end Trace

end HttpEcho
