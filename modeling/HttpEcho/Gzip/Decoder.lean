import HttpEcho.Gzip.Inflater
import HttpEcho.Gzip.Member
import HttpEcho.Reader

/-!
# Decoding gzip

A `Gzip.Decoder` is a source from which the output of the first member of its input is read; what
follows the member is ignored. The decoder writes out a window of 32 KiB after the other, each when
an octet of it is asked for. So malformed data is refused with the window in which it is found, data
that ends too early when all it holds has been given, and the trailer is checked then too.

`Gzip.decode` is given a limit on the output. It reads one octet more than the limit from the
decoder, and refuses the output if that octet was there. The number of octets to read is a word of
64 bits.
-/

namespace HttpEcho.Gzip

/-- A decoder of a gzip member. -/
inductive Decoder where
  /-- Nothing has been read yet. -/
  | header (bytes : Bytes)
  /-- The header was passed over, and so many octets of the output were given. -/
  | data (inflater : Deflate.Inflater) (given : Nat)
  /-- The trailer was checked. -/
  | ended
  deriving DecidableEq, Repr

namespace Decoder

/-- The size of the windows in which the output is written out. -/
def window : Nat := 32768

/-- The end of the window that the octet at a place belongs to. -/
def windowEnd (place : Nat) : Nat := (place / window + 1) * window

/-- Give up to `n` octets of the output, of which `given` octets were given before. -/
def readData (n : Nat) (inflater : Deflate.Inflater) (given : Nat) :
    Except GzipError (Bytes × Decoder) :=
  match inflater.fill? (windowEnd given) with
  | none => .error .corruptData
  | some inflater =>
    match (inflater.out.extract given (min (given + n) (windowEnd given))).toList,
      inflater.place with
    | [], .starved => .error .incompleteData
    | [], .finished rest => (checkTrailer inflater.out.toList rest).map fun _ => ([], ended)
    | octets, _ => .ok (octets, data inflater (given + octets.length))

/-- Read from a decoder. -/
def read : Reader Decoder GzipError
  | _, ended => .ok ([], ended)
  | n, data inflater given => readData n inflater given
  | n, header bytes =>
    match dropHeader bytes with
    | .error e => .error e
    | .ok octets => readData n (.ofBytes octets) 0

end Decoder

/-- How many octets are asked for at a time. -/
def bufferSize : Nat := 8192

/-- The output of the first member, if the member is intact and the output is within the limit. -/
def decode (limit : Nat) (bytes : Bytes) : Except GzipError Bytes :=
  match Decoder.read.readToEnd bufferSize ⟨.header bytes, (UInt64.ofNat limit + 1).toNat⟩ with
  | .error e => .error e
  | .ok out => if limit < out.length then .error (.tooLarge limit) else .ok out

end HttpEcho.Gzip
