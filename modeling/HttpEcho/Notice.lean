import HttpEcho.Body.Error
import HttpEcho.Gzip.Member
import HttpEcho.Settings.Basic

/-!
# Notices

What the server writes to its log. A notice says what happened; its level, the part of the server
that it comes from, its message and its named values are derived from that.
-/

namespace HttpEcho

/-- How urgent a notice is. -/
inductive Level where
  | error
  | warn
  | info
  | debug
  | trace
  deriving DecidableEq, Repr

namespace Level

/-- The place of a level in the order from the most urgent on. -/
def rank : Level → Nat
  | error => 1
  | warn => 2
  | info => 3
  | debug => 4
  | trace => 5

/-- The name of a level. -/
def name : Level → String
  | error => "ERROR"
  | warn => "WARN"
  | info => "INFO"
  | debug => "DEBUG"
  | trace => "TRACE"

/-- Whether a level is shown where `least` is the least urgent level that is. -/
def shownAt (level least : Level) : Bool := level.rank ≤ least.rank

end Level

/-- Something that is worth a line in the log. -/
inductive Notice where
  | starting (settings : Settings)
  | bindFailed (address : String) (fault : Fault)
  | listening (address : String)
  | shutdownSignal
  | newConnection (peer : String)
  | noDelayFailed (fault : Fault)
  | acceptFailed (fault : Fault)
  | connectionFailed (fault : Fault)
  | serverStopped (address : String)
  | closingIdleOnShutdown
  | idleTimeout
  | closedByClient
  | closedInHead
  | headTimeout
  | parseFailed (error : ProtocolError)
  | request (method target : String)
  | framingFailed (error : ProtocolError)
  | declaredTooLarge (length : Nat) (error : BodyError)
  | bodyCutShort
  | bodyFailed (error : BodyError)
  | closingAfterResponse
  | bodyDiscarded (octets : Nat)
  | bodyChunk (octets : Nat)
  | gzipDecoded (compressed decoded : Nat)
  | gzipFailed (error : GzipError)
  deriving DecidableEq, Repr

/-- The name of an echo policy. -/
def EchoPolicy.name : EchoPolicy → String
  | .full => "Full"
  | .firstChunk => "FirstChunk"

namespace Notice

/-- How urgent a notice is. -/
def level : Notice → Level
  | bindFailed .. | acceptFailed .. => .error
  | parseFailed .. | framingFailed .. | declaredTooLarge .. | bodyFailed .. | gzipFailed .. =>
    .warn
  | starting .. | listening .. | shutdownSignal | serverStopped .. | bodyChunk .. => .info
  | newConnection .. | noDelayFailed .. | connectionFailed .. | headTimeout | request ..
  | bodyDiscarded .. | gzipDecoded .. => .debug
  | closingIdleOnShutdown | idleTimeout | closedByClient | closedInHead | bodyCutShort
  | closingAfterResponse => .trace

/-- The part of the server that a notice comes from: the program, its connections, or the answers to
requests. -/
def target : Notice → String
  | starting .. | bindFailed .. | shutdownSignal => "keepalive_echo"
  | bodyDiscarded .. | bodyChunk .. | gzipDecoded .. | gzipFailed .. => "keepalive_echo::handler"
  | listening .. | newConnection .. | noDelayFailed .. | acceptFailed .. | connectionFailed ..
  | serverStopped .. | closingIdleOnShutdown | idleTimeout | closedByClient | closedInHead
  | headTimeout | parseFailed .. | request .. | framingFailed .. | declaredTooLarge ..
  | bodyCutShort | bodyFailed .. | closingAfterResponse => "keepalive_echo::server"

/-- The message of a notice. -/
def message : Notice → String
  | starting _ => "Starting keepalive-echo server"
  | bindFailed .. => "Failed to bind listener"
  | listening address => s!"Listening on {address}"
  | shutdownSignal => "Shutdown signal received"
  | newConnection _ => "New connection"
  | noDelayFailed _ => "Failed to set TCP_NODELAY"
  | acceptFailed _ => "Failed to accept connection"
  | connectionFailed _ => "Connection error"
  | serverStopped _ => "Server stopped"
  | closingIdleOnShutdown => "Closing idle connection on shutdown"
  | idleTimeout => "Idle timeout, closing connection"
  | closedByClient => "Connection closed by client"
  | closedInHead => "Connection closed mid-headers"
  | headTimeout => "Timed out waiting for request headers"
  | parseFailed _ => "Parse error"
  | request .. => "Request"
  | framingFailed _ => "Invalid body framing"
  | declaredTooLarge .. => "Declared body too large"
  | bodyCutShort => "Connection closed before body was complete"
  | bodyFailed _ => "Failed to read request body"
  | closingAfterResponse => "Closing connection after response"
  | bodyDiscarded _ => "Discarded GET request body"
  | bodyChunk _ => "Received body chunk"
  | gzipDecoded .. => "Decoded gzip body"
  | gzipFailed _ => "Failed to decode gzip body"

/-- The named values of a notice, in the order in which they are shown. -/
def values : Notice → List (String × String)
  | starting s =>
    [("keep_alive_timeout_ms", toString s.keepAliveTimeout),
      ("headers_timeout_ms", toString s.headersTimeout),
      ("echo", s.echo.name),
      ("workers", match s.workers with
        | none => "None"
        | some n => s!"Some({n})")]
  | bindFailed address fault => [("address", address), ("error", fault.message)]
  | newConnection peer => [("peer", peer)]
  | noDelayFailed fault | acceptFailed fault | connectionFailed fault =>
    [("error", fault.message)]
  | serverStopped address => [("address", address)]
  | parseFailed error | framingFailed error => [("error", error.message)]
  | request method target => [("method", method), ("target", target)]
  | declaredTooLarge length error => [("length", toString length), ("error", error.message)]
  | bodyFailed error => [("error", error.message)]
  | bodyDiscarded octets | bodyChunk octets => [("bytes", toString octets)]
  | gzipDecoded compressed decoded =>
    [("compressed", toString compressed), ("decoded", toString decoded)]
  | gzipFailed error => [("error", error.message)]
  | listening _ | shutdownSignal | closingIdleOnShutdown | idleTimeout | closedByClient
  | closedInHead | headTimeout | bodyCutShort | closingAfterResponse => []

/-- A notice as one line of the log. -/
def line (n : Notice) : String :=
  s!"{n.level.name} {n.message}" ++ String.join (n.values.map fun v => s!" {v.1}={v.2}")

end Notice

end HttpEcho
