import HttpEcho.Address.Endpoint

/-!
# Opening the listener

The calls that make a listening socket, in their order. The first call that fails ends the attempt,
and its failure is the answer.
-/

namespace HttpEcho

/-- A call that sets up a listening socket. -/
inductive SocketCall where
  /-- Make a stream socket for the version of the address. -/
  | create (address : HostAddress)
  | reuseAddress
  | nonBlocking
  | bind (endpoint : Endpoint)
  | listen (backlog : Nat)
  deriving DecidableEq, Repr

namespace Listener

/-- How many connections may wait to be accepted. -/
def backlog : Nat := 1024

/-- The calls that open a listener at an endpoint. -/
def calls (endpoint : Endpoint) : List SocketCall :=
  [.create endpoint.address, .reuseAddress, .nonBlocking, .bind endpoint, .listen backlog]

/-- Make calls up to the first that fails: the calls made, and the failure. -/
def attempt (fails : SocketCall → Option Fault) : List SocketCall → List SocketCall × Option Fault
  | [] => ([], none)
  | call :: rest =>
    match fails call with
    | some fault => ([call], some fault)
    | none =>
      let (made, fault) := attempt fails rest
      (call :: made, fault)

/-- Open a listener where the settings say, on a host on which some calls fail: the calls made, and
the endpoint or the failure. Without an endpoint no call is made. -/
def openAt (fails : SocketCall → Option Fault) (listen : String) :
    List SocketCall × Except Fault Endpoint :=
  match Endpoint.resolve listen with
  | .error fault => ([], .error fault)
  | .ok endpoint =>
    match attempt fails (calls endpoint) with
    | (made, some fault) => (made, .error fault)
    | (made, none) => (made, .ok endpoint)

end Listener

end HttpEcho
