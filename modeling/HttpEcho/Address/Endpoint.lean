import HttpEcho.Address.Ipv6
import HttpEcho.Fault

/-!
# Endpoints

An endpoint is an address and a port. `Endpoint.resolve` reads the text that says where to listen:
an address of version 6 in brackets and a port, or a host, the last colon, and a port. A host is
given by number; names are not looked up.
-/

namespace HttpEcho

/-- An address of either version. One of version 6 may be limited to a scope. -/
inductive HostAddress where
  | v4 (ip : Ipv4)
  | v6 (ip : Ipv6) (scope : Nat)
  deriving DecidableEq, Repr

/-- The address as text, without its scope. -/
def HostAddress.text : HostAddress → String
  | v4 ip => ip.text
  | v6 ip _ => ip.text

/-- An address and a port. -/
structure Endpoint where
  address : HostAddress
  port : UInt16
  deriving DecidableEq, Repr

namespace Endpoint

/-- An endpoint as text. -/
def text (e : Endpoint) : String :=
  match e.address with
  | .v4 ip => s!"{ip.text}:{e.port.toNat}"
  | .v6 ip 0 => s!"[{ip.text}]:{e.port.toNat}"
  | .v6 ip scope => s!"[{ip.text}%{scope}]:{e.port.toNat}"

/-- A number of sixteen bits as a port. -/
def portOf? (n : Option Nat) : Option UInt16 := (n.filter (· < 65536)).map Nat.toUInt16

/-- An address of version 6 with an optional scope. -/
def scoped? (s : List Char) : Option HostAddress :=
  match Text.cutAt? ['%'] s with
  | none => (Ipv6.parse? s).map (.v6 · 0)
  | some (ip, scope) =>
    match Ipv6.parse? ip, (Text.decimal? scope).filter (· < 4294967296) with
    | some ip, some scope => some (.v6 ip scope)
    | _, _ => none

/-- An address of version 6 in brackets, a colon, and a port. -/
def bracketed? (s : List Char) : Option Endpoint :=
  match s with
  | '[' :: s =>
    match Text.cutAt? [']', ':'] s with
    | none => none
    | some (ip, port) =>
      match scoped? ip, portOf? (Text.decimal? port) with
      | some address, some port => some { address, port }
      | _, _ => none
  | _ => none

/-- The address of a host that is given by number. -/
def host? (s : List Char) : Option HostAddress :=
  match Ipv4.ofNumbers? s with
  | some ip => some (.v4 ip)
  | none => scoped? s

/-- The failure to find the address of a host. -/
def unknownHost : Fault :=
  ⟨.uncategorized, "failed to lookup address information: Name or service not known"⟩

/-- The endpoint that a text denotes. -/
def resolve (listen : String) : Except Fault Endpoint :=
  let s := listen.toList
  match bracketed? s with
  | some endpoint => .ok endpoint
  | none =>
    match Text.cutAtLast? ':' s with
    | none => .error ⟨.invalidInput, "invalid socket address"⟩
    | some (host, port) =>
      match portOf? (Text.signedDecimal? port), host? host with
      | none, _ => .error ⟨.invalidInput, "invalid port value"⟩
      | some _, none => .error unknownHost
      | some port, some address => .ok { address, port }

end Endpoint

end HttpEcho
