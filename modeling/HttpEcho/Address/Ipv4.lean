import HttpEcho.Text.Items
import HttpEcho.Text.Numeral

/-!
# Addresses of version 4

An address is four octets, written as decimal numbers with dots between them (`Ipv4.text`). Such a
text is read back by `Ipv4.parse?`. Look-up of a host admits more (`Ipv4.ofNumbers?`): numbers may
be octal or hexadecimal, as their first digits say, and when there are fewer than four of them the
last one stands for all octets that remain.
-/

namespace HttpEcho

/-- An address of version 4. -/
structure Ipv4 where
  a : UInt8
  b : UInt8
  c : UInt8
  d : UInt8
  deriving DecidableEq, Repr

namespace Ipv4

/-- An address as text. -/
def text (ip : Ipv4) : String := s!"{ip.a.toNat}.{ip.b.toNat}.{ip.c.toNat}.{ip.d.toNat}"

/-- The address whose octets are the digits of a number to the base 256. -/
def ofNat (n : Nat) : Ipv4 :=
  ⟨(n / 16777216).toUInt8, (n / 65536).toUInt8, (n / 256).toUInt8, n.toUInt8⟩

/-- An octet in decimal: at most 255, and without zeros in front. -/
def octet? (s : List Char) : Option UInt8 :=
  if 1 < s.length ∧ s.head? = some '0' then none
  else ((Text.decimal? s).filter (· < 256)).map Nat.toUInt8

/-- The address that a text with four decimal octets denotes. -/
def parse? (s : List Char) : Option Ipv4 :=
  match (Text.pieces '.' s).mapM octet? with
  | some [a, b, c, d] => some ⟨a, b, c, d⟩
  | _ => none

/-- A number that is hexadecimal after `0x`, octal after `0`, and decimal otherwise. -/
def number? : List Char → Option Nat
  | '0' :: 'x' :: s | '0' :: 'X' :: s => Text.hexadecimal? s
  | '0' :: d :: s => Text.numeral? 8 (d :: s)
  | s => Text.decimal? s

/-- The address that up to four numbers with dots between them denote. -/
def ofNumbers? (s : List Char) : Option Ipv4 :=
  match (Text.pieces '.' s).mapM number? with
  | some [n] => if n < 4294967296 then some (ofNat n) else none
  | some [a, n] => if a < 256 ∧ n < 16777216 then some (ofNat (a * 16777216 + n)) else none
  | some [a, b, n] =>
    if a < 256 ∧ b < 256 ∧ n < 65536 then some (ofNat ((a * 256 + b) * 65536 + n)) else none
  | some [a, b, c, d] =>
    if a < 256 ∧ b < 256 ∧ c < 256 ∧ d < 256 then
      some ⟨a.toUInt8, b.toUInt8, c.toUInt8, d.toUInt8⟩
    else none
  | _ => none

end Ipv4

end HttpEcho
