import HttpEcho.Fault
import HttpEcho.ProtocolError

/-!
# Body errors

Why the body of a request could not be read.
-/

namespace HttpEcho

/-- What stops the reading of a body. -/
inductive BodyError where
  /-- Reading from the peer failed. -/
  | io (fault : Fault)
  /-- The peer closed the connection before the body was complete. -/
  | unexpectedEof
  /-- The chunks are malformed. -/
  | malformed (error : ProtocolError)
  /-- The body is larger than the limit. -/
  | tooLarge (limit : Nat)
  deriving DecidableEq, Repr

namespace BodyError

/-- The text that is logged and sent for the error. -/
def message : BodyError → String
  | io fault => s!"I/O error reading body: {fault.message}"
  | unexpectedEof => "Connection closed before body was complete"
  | malformed error => error.report
  | tooLarge limit => s!"Request body exceeds limit of {limit} bytes"

/-- The status of the response to a request with the error. -/
def status : BodyError → Status
  | tooLarge _ => .payloadTooLarge
  | _ => .badRequest

end BodyError

end HttpEcho
