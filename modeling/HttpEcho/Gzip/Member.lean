import HttpEcho.Fault
import HttpEcho.Gzip.Crc32

/-!
# Gzip members

A gzip member is a header, deflated data, and a trailer with the check value and the length of the
output. This module passes over headers and checks trailers; `Gzip.Decoder` reads what a member
holds.
-/

namespace HttpEcho

/-- Why a gzip member is refused. -/
inductive GzipError where
  /-- The fixed part of the header is not that of a gzip member. -/
  | invalidHeader
  /-- The name or the comment is too long. -/
  | fieldTooLong
  /-- The deflated data is malformed. -/
  | corruptData
  /-- The deflated data ends too early. -/
  | incompleteData
  /-- The header or the trailer ends too early. -/
  | unexpectedEof
  /-- A check value or the length is wrong. -/
  | checksumMismatch
  /-- The output is larger than the limit. -/
  | tooLarge (limit : Nat)
  deriving DecidableEq, Repr

namespace GzipError

/-- The kind of failure. -/
def kind : GzipError → FaultKind
  | invalidHeader | fieldTooLong | corruptData | checksumMismatch => .invalidInput
  | incompleteData | unexpectedEof => .unexpectedEof
  | tooLarge _ => .invalidData

/-- The text that is logged and sent for the error. -/
def message : GzipError → String
  | invalidHeader => "invalid gzip header"
  | fieldTooLong => "gzip header field too long"
  | corruptData => "corrupt deflate stream"
  | incompleteData => "incomplete deflate stream"
  | unexpectedEof => FaultKind.unexpectedEof.description
  | checksumMismatch => "corrupt gzip stream does not have a matching checksum"
  | tooLarge limit => s!"decompressed body exceeds {limit} bytes"

end GzipError

namespace Gzip

/-- The longest name or comment. -/
def maxFieldLength : Nat := 65535

/-- The number that octets write with the least significant octet first. -/
def littleEndian (bytes : Bytes) : Nat := bytes.foldr (fun b n => b.toNat + 256 * n) 0

/-- The first `n` octets and the rest. -/
def take (n : Nat) (bytes : Bytes) : Except GzipError (Bytes × Bytes) :=
  if bytes.length < n then .error .unexpectedEof else .ok (bytes.take n, bytes.drop n)

/-- Pass over a field that ends with a zero octet. -/
def dropField (bytes : Bytes) : Except GzipError Bytes :=
  match Bytes.search [0] bytes with
  | some n => if maxFieldLength < n then .error .fieldTooLong else .ok (bytes.drop (n + 1))
  | none =>
    .error (if maxFieldLength < bytes.length then .fieldTooLong else .unexpectedEof)

/-- Pass over an extra field, which has its length in front. -/
def dropExtra (bytes : Bytes) : Except GzipError Bytes :=
  match take 2 bytes with
  | .error e => .error e
  | .ok (size, rest) => (take (littleEndian size) rest).map Prod.snd

/-- Pass over the check value of the header, which covers all of `header` in front of it. -/
def checkHeader (header bytes : Bytes) : Except GzipError Bytes :=
  match take 2 bytes with
  | .error e => .error e
  | .ok (check, rest) =>
    let covered := header.take (header.length - bytes.length)
    if littleEndian check = (Crc32.ofBytes covered).toNat % 65536 then .ok rest
    else .error .checksumMismatch

/-- Pass over a part of the header that is there if `present` holds. -/
def dropIf (present : Bool) (part : Bytes → Except GzipError Bytes) (bytes : Bytes) :
    Except GzipError Bytes :=
  if present then part bytes else .ok bytes

/-- Pass over the header: ten octets with the format, the method and the flags, and the parts that
the flags announce. -/
def dropHeader (bytes : Bytes) : Except GzipError Bytes :=
  match take 10 bytes with
  | .error e => .error e
  | .ok (fixed, rest) =>
    let flags := (fixed.getD 3 0).toNat
    if fixed.take 3 ≠ [0x1F, 0x8B, 8] ∨ 32 ≤ flags then .error .invalidHeader
    else
      dropIf (flags.testBit 2) dropExtra rest
        |>.bind (dropIf (flags.testBit 3) dropField)
        |>.bind (dropIf (flags.testBit 4) dropField)
        |>.bind (dropIf (flags.testBit 1) (checkHeader bytes))

/-- Whether the octets after the data begin with the trailer that belongs to the output. -/
def checkTrailer (out bytes : Bytes) : Except GzipError Unit :=
  match take 8 bytes with
  | .error e => .error e
  | .ok (trailer, _) =>
    if littleEndian (trailer.take 4) = (Crc32.ofBytes out).toNat
        ∧ littleEndian (trailer.drop 4) = out.length % 4294967296 then .ok ()
    else .error .checksumMismatch

end Gzip

end HttpEcho
