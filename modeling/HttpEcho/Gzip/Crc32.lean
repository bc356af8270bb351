import HttpEcho.Bytes

/-!
# CRC-32

The cyclic redundancy check of gzip: polynomial EDB88320 in reflected order, all ones in front,
and complemented at the end.
-/

namespace HttpEcho.Crc32

/-- Shift one bit out of the register. -/
def shift (register : UInt32) : UInt32 :=
  if register &&& 1 = 1 then (register >>> 1) ^^^ 0xEDB88320 else register >>> 1

/-- Feed one octet into the register. -/
def push (register : UInt32) (b : UInt8) : UInt32 :=
  Nat.repeat shift 8 (register ^^^ b.toUInt32)

/-- The check value of a string of octets. -/
def ofBytes (bytes : Bytes) : UInt32 := bytes.foldl push 0xFFFFFFFF ^^^ 0xFFFFFFFF

end HttpEcho.Crc32
