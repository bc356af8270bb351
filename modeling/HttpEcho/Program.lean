import HttpEcho.Listener
import HttpEcho.LogFilter
import HttpEcho.Settings.Load

/-!
# The program

A program starts in an environment: it reads its command line, loads the settings, opens its
listener, and then serves until it is interrupted. `Program.launch` says how far it gets, with its
log up to there.
-/

namespace HttpEcho

/-- What a program finds where it is started. -/
structure Environment where
  arguments : List String
  /-- The octets of a file. -/
  files : String → Except Fault Bytes
  /-- The log filter that is asked for, if one is. -/
  logFilter : Option String
  /-- How the host fails calls that set up a socket. -/
  fails : SocketCall → Option Fault

namespace Program

/-- Why a program whose command line is in order fails. -/
inductive Failure where
  | settings (error : SettingsError)
  | listener (fault : Fault)
  deriving DecidableEq, Repr

/-- The text that is shown for a failure. -/
def Failure.message : Failure → String
  | settings error => error.message
  | listener fault => fault.message

/-- The exit code of a program that fails. -/
def Failure.exitCode : Nat := 1

/-- How far a program gets, with the notices that it writes to its log. -/
inductive Launch where
  /-- The command line ends the program. -/
  | stopped (reason : Options.Stop)
  | failed (failure : Failure) (filter : LogFilter) (log : List Notice)
  | listening (settings : Settings) (endpoint : Endpoint) (filter : LogFilter) (log : List Notice)
  deriving DecidableEq, Repr

/-- What a program that listens at an endpoint announces. An address of version 6 has no brackets
here. -/
def announcement (endpoint : Endpoint) : Notice :=
  .listening s!"{endpoint.address.text}:{endpoint.port.toNat}"

/-- Open the listener of a program whose settings are loaded. -/
def openListener (env : Environment) (settings : Settings) : Launch :=
  let filter := LogFilter.choose env.logFilter settings.logLevel
  let log := [Notice.starting settings]
  match (Listener.openAt env.fails settings.listen).2 with
  | .error fault =>
    .failed (.listener fault) filter (log ++ [.bindFailed settings.listen fault])
  | .ok endpoint => .listening settings endpoint filter (log ++ [announcement endpoint])

/-- Start a program. -/
def launch (env : Environment) : Launch :=
  match Options.parse env.arguments with
  | .error reason => .stopped reason
  | .ok options =>
    match Settings.load env.files options with
    | .error error => .failed (.settings error) (.ofDirectives []) []
    | .ok settings => openListener env settings

/-- What a program that is interrupted while it listens still writes to its log. -/
def farewell (endpoint : Endpoint) : List Notice :=
  [.shutdownSignal, .serverStopped endpoint.text]

end Program

end HttpEcho
