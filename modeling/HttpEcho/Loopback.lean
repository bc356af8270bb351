import HttpEcho.Listener

/-!
# A host with a loopback interface alone

Which calls that set up a socket fail on a host whose only interface is the loopback, and what
happens to a second listener at the endpoint of the first.
-/

namespace HttpEcho.Loopback

/-- Whether an address is one of the host: those of the loopback, and those that stand for any. -/
def isLocal : HostAddress → Bool
  | .v4 ip => ip.a = 127 || ip = ⟨0, 0, 0, 0⟩
  | .v6 ip _ =>
    let groups := ip.groups.toList
    groups.dropLast.all (· = 0) && groups.getLast?.any (· ≤ 1)

/-- No interface has the address. -/
def notLocal : Fault := ⟨.addrNotAvailable, "Cannot assign requested address (os error 99)"⟩

/-- A listener is there already. -/
def inUse : Fault := ⟨.addrInUse, "Address already in use (os error 98)"⟩

/-- How calls fail when there are listeners at the given endpoints. Port zero stands for a port that
no listener has. -/
def fails (taken : List Endpoint) : SocketCall → Option Fault
  | .bind endpoint =>
    if !isLocal endpoint.address then some notLocal
    else if endpoint.port ≠ 0 ∧ endpoint ∈ taken then some inUse
    else none
  | _ => none

/-- The endpoint at which a listener is that was bound to `endpoint`, where `free` is a port that no
listener has. -/
def assigned (free : UInt16) (endpoint : Endpoint) : Endpoint :=
  if endpoint.port = 0 then { endpoint with port := free } else endpoint

end HttpEcho.Loopback
