import HttpEcho.Status
import HttpEcho.Text.Utf8

/-!
# Responses

A response is a status and a body. On the wire it carries the length of its body, so that a client
can tell where it ends, and says whether the connection stays open.
-/

namespace HttpEcho

/-- The name under which the server presents itself. -/
def serverName : String := "keepalive-echo"

/-- The interim response that tells a client to go on with its body. -/
def continueResponse : Bytes := Utf8.encode "HTTP/1.1 100 Continue\r\n\r\n"

/-- A span of time. -/
structure Span where
  seconds : Nat
  nanoseconds : Nat
  deriving DecidableEq, Repr

namespace Span

/-- A span of whole milliseconds. -/
def ofMilliseconds (ms : Nat) : Span := ⟨ms / 1000, ms % 1000 * 1000000⟩

/-- The span in whole seconds, rounded up, so that only the empty span counts as none. -/
def secondsRoundedUp (s : Span) : Nat := s.seconds + if s.nanoseconds = 0 then 0 else 1

end Span

/-- What a response says about the connection. -/
inductive Persistence where
  /-- The connection stays open, and may be idle for this long. -/
  | keepAlive (idle : Span)
  /-- The connection closes after the response. -/
  | close
  deriving DecidableEq, Repr

/-- The header lines that announce the persistence. -/
def Persistence.lines : Persistence → String
  | .keepAlive idle =>
    s!"Connection: keep-alive\r\nKeep-Alive: timeout={idle.secondsRoundedUp}\r\n"
  | .close => "Connection: close\r\n"

/-- A response. -/
structure Response where
  status : Status
  body : Bytes
  deriving DecidableEq, Repr

namespace Response

/-- A successful response. -/
def ok (body : Bytes) : Response := ⟨.ok, body⟩

/-- A response that reports an error as plain text. -/
def error (status : Status) (message : String) : Response := ⟨status, Utf8.encode message⟩

/-- The status line and the header lines, up to and with the blank line. -/
def head (r : Response) (persistence : Persistence) : String :=
  s!"HTTP/1.1 {r.status.code} {r.status.reason}\r\n" ++
  s!"Server: {serverName}\r\n" ++
  s!"Content-Length: {r.body.length}\r\n" ++
  persistence.lines ++ "\r\n"

/-- The response on the wire. With `headOnly` the body is left out, and its length still stands
in the head. -/
def encode (r : Response) (persistence : Persistence) (headOnly : Bool) : Bytes :=
  Utf8.encode (r.head persistence) ++ if headOnly then [] else r.body

end Response

end HttpEcho
