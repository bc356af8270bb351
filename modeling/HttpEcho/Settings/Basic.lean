/-!
# Settings

What the server can be told: where to listen, how many connections to serve at once, how long to
wait, how much to accept, and how to echo. Times are in milliseconds, sizes in octets.
-/

namespace HttpEcho

/-- What of a request body is sent back. -/
inductive EchoPolicy where
  /-- The whole body. -/
  | full
  /-- The first chunk alone; the others are read and dropped. -/
  | firstChunk
  deriving DecidableEq, Repr

/-- The settings of a server. -/
structure Settings where
  listen : String := "0.0.0.0:8080"
  workers : Option Nat := none
  maxConnections : Nat := 10000
  keepAliveTimeout : Nat := 10000
  headersTimeout : Nat := 10000
  maxHeaderSize : Nat := 16384
  maxBodySize : Nat := 16777216
  echo : EchoPolicy := .full
  logLevel : String := "info"
  deriving DecidableEq, Repr

namespace Settings

/-- Whether connections may stay open between requests. -/
def keepAliveEnabled (s : Settings) : Bool := s.keepAliveTimeout ≠ 0

/-- Why settings are refused. -/
inductive Flaw where
  | zeroHeadersTimeout
  | zeroMaxHeaderSize
  | zeroMaxConnections
  | zeroWorkers
  deriving DecidableEq, Repr

/-- The text that is shown for a flaw. -/
def Flaw.message : Flaw → String
  | zeroHeadersTimeout => "headers timeout must be greater than zero"
  | zeroMaxHeaderSize => "max_header_size must be greater than zero"
  | zeroMaxConnections => "max_connections must be greater than zero"
  | zeroWorkers => "workers must be greater than zero"

/-- The first flaw of the settings. -/
def flaw? (s : Settings) : Option Flaw :=
  if s.headersTimeout = 0 then some .zeroHeadersTimeout
  else if s.maxHeaderSize = 0 then some .zeroMaxHeaderSize
  else if s.maxConnections = 0 then some .zeroMaxConnections
  else if s.workers = some 0 then some .zeroWorkers
  else none

end Settings

end HttpEcho
