import HttpEcho.Head.Parser

/-!
# Heads out of a growing buffer

A buffer to which octets are added is read head by head. `Head.readAll` takes the heads that a
buffer begins with, one after the other, up to an error; `Head.feed` does so whenever a part
arrives, with what the earlier parts have left.
-/

namespace HttpEcho

/-- What is read of a buffer: heads, each with its size, the error that ends them, and the octets
that are left. An incomplete head is such an error, and more octets may complete it. -/
structure HeadsRead where
  heads : List (Head × Nat)
  error : ProtocolError
  rest : Bytes
  deriving DecidableEq, Repr

namespace Head

/-- The heads that a buffer begins with. -/
def readAll (limit : Nat) (buffer : Bytes) : HeadsRead :=
  match _h : parse limit buffer with
  | .error error => { heads := [], error, rest := buffer }
  | .ok (head, size) =>
    let read := readAll limit (buffer.drop size)
    { read with heads := (head, size) :: read.heads }
termination_by buffer.length
decreasing_by
  have := parse_consumed _h
  rw [List.length_drop]
  omega

/-- What is read as each of the parts arrives. -/
def feed (limit : Nat) (buffer : Bytes) : List Bytes → List HeadsRead
  | [] => []
  | part :: parts =>
    let read := readAll limit (buffer ++ part)
    read :: feed limit read.rest parts

end Head

end HttpEcho
