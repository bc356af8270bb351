import HttpEcho.Status

/-!
# Protocol errors

What can be wrong with a request on the wire: with its request line, its header fields, the
framing of its body, or the chunks of that body.
-/

namespace HttpEcho

/-- A violation of the protocol, with the offending text where there is one. -/
inductive ProtocolError where
  /-- The head does not end within the octets seen so far. -/
  | incomplete
  /-- The request line is not a method, a target and a version. -/
  | invalidRequestLine (text : String)
  /-- A version of HTTP other than 1.0 and 1.1. -/
  | unsupportedVersion (version : String)
  /-- A malformed header line. -/
  | invalidHeader (text : String)
  /-- The head is longer than the limit. -/
  | headersTooLarge
  /-- There are more header lines than the limit. -/
  | tooManyHeaders
  /-- A content length that is no number, too large a number, or not the only one. -/
  | invalidContentLength (value : String)
  /-- A final transfer coding other than chunked, or one in a request of version 1.0. -/
  | unsupportedTransferEncoding (coding : String)
  /-- A malformed chunked body. -/
  | invalidChunk (text : String)
  deriving DecidableEq, Repr

namespace ProtocolError

/-- The text that is logged and sent for the error. -/
def message : ProtocolError → String
  | incomplete => "Incomplete request"
  | invalidRequestLine text => s!"Invalid request line: {text}"
  | unsupportedVersion version => s!"Unsupported HTTP version: {version}"
  | invalidHeader text => s!"Invalid header: {text}"
  | headersTooLarge => "Request headers too large"
  | tooManyHeaders => "Too many headers"
  | invalidContentLength value => s!"Invalid Content-Length: {value}"
  | unsupportedTransferEncoding coding => s!"Unsupported Transfer-Encoding: {coding}"
  | invalidChunk text => s!"Invalid chunk: {text}"

/-- The status of the response to a request with the error. -/
def status : ProtocolError → Status
  | headersTooLarge | tooManyHeaders => .requestHeaderFieldsTooLarge
  | _ => .badRequest

/-- The text of the response to a request with the error. -/
def report (e : ProtocolError) : String := s!"HTTP Parsing Error: {e.message}"

end ProtocolError

end HttpEcho
