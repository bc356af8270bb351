import HttpEcho.Bytes

/-!
# UTF-8

A text is encoded character by character (`Utf8.encode`). Reading goes the other way: `Utf8.units`
divides any octets into characters and malformed stretches. `Utf8.decode?` accepts the octets only
if every unit is a character; `Utf8.lossy` writes U+FFFD for each malformed stretch, where a
stretch is as long as it can be while it still begins some well-formed character (the division
that the Unicode standard recommends for replacement).
-/

namespace HttpEcho.Utf8

/-- The UTF-8 form of a list of characters. -/
def encodeChars (cs : List Char) : Bytes := cs.flatMap String.utf8EncodeChar

/-- The UTF-8 form of a text. -/
def encode (s : String) : Bytes := encodeChars s.toList

/-- A character of which some octets have been read: `missing` octets are still to come, the next
one must lie between `low` and `high`, and `bits` holds what the earlier ones contribute. -/
structure Partial where
  missing : Nat
  low : UInt8
  high : UInt8
  bits : Nat

/-- What is known after some octets: the units so far, the last one first, and the character that
is being read. A unit is a character or, as `none`, a malformed stretch. -/
structure Progress where
  units : List (Option Char)
  open? : Option Partial

/-- Read an octet that begins a unit. The bounds on the second octet exclude overlong forms
(after E0 and F0), surrogates (after ED) and values above U+10FFFF (after F4). -/
def lead (units : List (Option Char)) (b : UInt8) : Progress :=
  if b < 0x80 then ⟨some (Char.ofNat b.toNat) :: units, none⟩
  else if b < 0xC2 then ⟨none :: units, none⟩
  else if b < 0xE0 then ⟨units, some ⟨1, 0x80, 0xBF, b.toNat - 0xC0⟩⟩
  else if b = 0xE0 then ⟨units, some ⟨2, 0xA0, 0xBF, 0⟩⟩
  else if b = 0xED then ⟨units, some ⟨2, 0x80, 0x9F, 0x0D⟩⟩
  else if b < 0xF0 then ⟨units, some ⟨2, 0x80, 0xBF, b.toNat - 0xE0⟩⟩
  else if b = 0xF0 then ⟨units, some ⟨3, 0x90, 0xBF, 0⟩⟩
  else if b < 0xF4 then ⟨units, some ⟨3, 0x80, 0xBF, b.toNat - 0xF0⟩⟩
  else if b = 0xF4 then ⟨units, some ⟨3, 0x80, 0x8F, 4⟩⟩
  else ⟨none :: units, none⟩

/-- Read one octet. An octet that cannot continue the open character ends it as a malformed
stretch and begins a unit itself. -/
def Progress.push (p : Progress) (b : UInt8) : Progress :=
  match p.open? with
  | none => lead p.units b
  | some c =>
    if c.low ≤ b ∧ b ≤ c.high then
      let bits := c.bits * 64 + (b.toNat - 0x80)
      if c.missing ≤ 1 then ⟨some (Char.ofNat bits) :: p.units, none⟩
      else ⟨p.units, some ⟨c.missing - 1, 0x80, 0xBF, bits⟩⟩
    else lead (none :: p.units) b

/-- All units, in order; a character that is still open is malformed. -/
def Progress.finish (p : Progress) : List (Option Char) :=
  match p.open? with
  | none => p.units.reverse
  | some _ => (none :: p.units).reverse

/-- The characters and malformed stretches that octets consist of. -/
def units (bytes : Bytes) : List (Option Char) := (bytes.foldl Progress.push ⟨[], none⟩).finish

/-- The characters that octets encode, if they are well-formed UTF-8. -/
def decode? (bytes : Bytes) : Option (List Char) := (units bytes).mapM id

/-- The text that octets encode, with U+FFFD for each malformed stretch. -/
def lossy (bytes : Bytes) : String :=
  String.ofList ((units bytes).map fun u => u.getD (Char.ofNat 0xFFFD))

end HttpEcho.Utf8
