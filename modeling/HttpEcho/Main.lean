import HttpEcho.Directory
import HttpEcho.Options.Usage
import HttpEcho.Program
import HttpEcho.Session
import Std.Async.Signal
import Std.Async.TCP
import Std.Async.Timer
import Std.Sync.CancellationToken
import Std.Sync.Semaphore

/-!
# The server on the network

This is the only place where the program touches the outside. It reads the environment, opens the
listener, and carries octets, deadlines and the interrupt between sockets and the connections'
machines (`Connection.step`); what is answered, logged or closed is decided there.
-/

namespace HttpEcho.Host

open Std.Async
open Std.Net (SocketAddress)

/-- How many octets are read at once. -/
def readSize : UInt64 := 16384

/-- What the parts of a running server share. -/
structure Shared where
  settings : Settings
  filter : LogFilter
  stop : Std.CancellationToken
  slots : Std.Semaphore

/-- Write a notice to the log, if it is shown. -/
def Shared.log (shared : Shared) (notice : Notice) : IO Unit := do
  if shared.filter.shows notice then IO.println notice.line

/-! ### Addresses and failures -/

/-- An endpoint as an address of a socket. -/
def socketAddress (endpoint : Endpoint) : SocketAddress :=
  match endpoint.address with
  | .v4 ip => .v4 ⟨⟨#v[ip.a, ip.b, ip.c, ip.d]⟩, endpoint.port⟩
  | .v6 ip _ => .v6 ⟨⟨ip.groups⟩, endpoint.port⟩

/-- The endpoint that an address of a socket is. -/
def endpointOf (address : SocketAddress) : Endpoint :=
  match address with
  | .v4 a =>
    let o := a.addr.octets
    { address := .v4 ⟨o[0], o[1], o[2], o[3]⟩, port := a.port }
  | .v6 a => { address := .v6 ⟨a.addr.segments⟩ 0, port := a.port }

/-- A failure that the system reports. -/
def faultOf (e : IO.Error) : Fault :=
  match e with
  | .noFileOrDirectory .. => Directory.missing
  | .resourceVanished .. => FaultKind.connectionReset.fault
  | .timeExpired .. => FaultKind.timedOut.fault
  | e => ⟨.other, toString e⟩

/-! ### One connection -/

/-- Do what a connection does. -/
def perform (shared : Shared) (client : TCP.Socket.Client) (action : Connection.Action) :
    Async Unit := do
  match action with
  | .log notice => shared.log notice
  | .send octets => client.send ⟨octets.toArray⟩
  | .close => client.shutdown

/-- Wait for the next thing that a connection in a phase waits for. -/
def await (shared : Shared) (client : TCP.Socket.Client) (phase : Connection.Phase) :
    Async Connection.Input := do
  let patience := Session.patience phase
  let arrival : Selectable Connection.Input :=
    .case (client.recvSelector readSize) fun octets =>
      return (octets.map fun o => .octets o.toList).getD .endOfInput
  let stop : Array (Selectable Connection.Input) :=
    if patience.idle then #[.case shared.stop.selector fun _ => return .stop] else #[]
  let timer? : Option (Selector Unit) ← patience.deadline.mapM fun time => do
    Selector.sleep (.ofNat (time - (← IO.monoMsNow)))
  let deadline : Array (Selectable Connection.Input) :=
    timer?.toArray.map fun timer => .case timer fun _ => return .deadline
  try Selectable.one (#[arrival] ++ deadline ++ stop)
  catch e => return .failure (faultOf e).kind

/-- Serve a connection from a phase on. -/
partial def serveFrom (shared : Shared) (client : TCP.Socket.Client) (phase : Connection.Phase) :
    Async Unit := do
  match phase with
  | .ended .closed => return
  | .ended (.failed fault) => shared.log (.connectionFailed fault)
  | phase =>
    let input ← await shared client phase
    let stopping ← shared.stop.isCancelled
    let turn := Connection.step shared.settings (← IO.monoMsNow) stopping phase input
    let failure? ←
      try
        turn.actions.forM (perform shared client)
        pure none
      catch e => pure (some (faultOf e))
    serveFrom shared client ((failure?.map fun f => .ended (.failed f)).getD turn.phase)

/-- Serve a connection, and give its slot back. -/
def serve (shared : Shared) (client : TCP.Socket.Client) : Async Unit := do
  try client.noDelay catch e => shared.log (.noDelayFailed (faultOf e))
  serveFrom shared client (Connection.start shared.settings (← IO.monoMsNow))
  shared.slots.release

/-! ### The accept loop -/

/-- Greet and serve a connection on its own. -/
def welcome (shared : Shared) (client : TCP.Socket.Client) : Async Unit := do
  let peer ← client.getPeerName
  shared.log (.newConnection (endpointOf peer).text)
  background (serve shared client)

/-- Accept connections until the server is told to stop: each has a slot before it is accepted. -/
partial def accept (shared : Shared) (listener : TCP.Socket.Server) : Async Unit := do
  let slot ← shared.slots.acquire
  Async.ofTask slot.result!
  if ← shared.stop.isCancelled then return
  try
    let client? : Option TCP.Socket.Client ←
      Selectable.one
        #[.case shared.stop.selector fun _ => return none,
          .case listener.acceptSelector fun client => return some client]
    if let some client := client? then welcome shared client
  catch e =>
    shared.log (.acceptFailed (faultOf e))
    shared.slots.release
  if ← shared.stop.isCancelled then return
  accept shared listener

/-- Tell the server to stop when the program is interrupted. -/
def awaitInterrupt (shared : Shared) : Async Unit := do
  let interrupt ← Signal.Waiter.mk .sigint false
  let _ ← Async.ofAsyncTask (← interrupt.wait)
  shared.log .shutdownSignal
  shared.stop.cancel
  shared.slots.release

/-- Serve until the program is interrupted. -/
def run (settings : Settings) (filter : LogFilter) (listener : TCP.Socket.Server)
    (endpoint : Endpoint) : IO Unit := do
  let shared : Shared :=
    { settings, filter, stop := ← Std.CancellationToken.new
      slots := ← Std.Semaphore.new settings.maxConnections }
  Async.block do
    background (awaitInterrupt shared)
    accept shared listener
  shared.log (.serverStopped endpoint.text)

/-! ### The start -/

/-- Open a listener, and say where it listens. -/
def openListener (endpoint : Endpoint) : IO (Except Fault (TCP.Socket.Server × Endpoint)) := do
  try
    let listener ← TCP.Socket.Server.mk
    listener.bind (socketAddress endpoint)
    listener.listen Listener.backlog.toUInt32
    return .ok (listener, endpointOf (← listener.getSockName))
  catch e => return .error (faultOf e)

/-- The octets of the settings file that a command line names. -/
def settingsFile (arguments : List String) : IO (Except Fault Bytes) := do
  match Options.parse arguments with
  | .ok { config := some path, .. } =>
    try return .ok (← IO.FS.readBinFile path).toList
    catch e => return .error (faultOf e)
  | _ => return .error Directory.missing

/-- Write the lines of a log. -/
def report (filter : LogFilter) (log : List Notice) : IO Unit :=
  (filter.lines log).forM fun line => IO.println line

/-- Start the program; gives its exit code. -/
def start (arguments : List String) : IO UInt32 := do
  let file ← settingsFile arguments
  let env : Environment :=
    { arguments, files := fun _ => file, logFilter := ← IO.getEnv "RUST_LOG"
      fails := fun _ => none }
  match Program.launch env with
  | .stopped reason =>
    if reason.exitCode = 0 then IO.println reason.message else IO.eprintln reason.message
    return reason.exitCode.toUInt32
  | .failed failure filter log => fail failure filter log
  | .listening settings endpoint filter _ =>
    match ← openListener endpoint with
    | .error fault =>
      fail (.listener fault) filter [.starting settings, .bindFailed settings.listen fault]
    | .ok (listener, bound) =>
      report filter [.starting settings, Program.announcement bound]
      run settings filter listener bound
      return 0
where
  /-- Report a failure. -/
  fail (failure : Program.Failure) (filter : LogFilter) (log : List Notice) : IO UInt32 := do
    report filter log
    IO.eprintln s!"Error: {failure.message}"
    return Program.Failure.exitCode.toUInt32

end HttpEcho.Host

/-- The command line. -/
def main (arguments : List String) : IO UInt32 := HttpEcho.Host.start arguments
