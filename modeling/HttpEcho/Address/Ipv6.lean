import HttpEcho.Address.Ipv4

/-!
# Addresses of version 6

An address is eight groups of sixteen bits, written in hexadecimal with colons between them. One
run of zero groups may be left out, which leaves `::`, and the last two groups may be written as an
address of version 4. `Ipv6.parse?` reads every such form; `Ipv6.text` writes the canonical one:
lower case, no zeros in front, and the first longest run of two or more zero groups left out.
-/

namespace HttpEcho

/-- An address of version 6. -/
structure Ipv6 where
  groups : Vector UInt16 8
  deriving DecidableEq, Repr

namespace Ipv6

/-- The address with the given groups, if there are eight. -/
def ofGroups? (groups : List UInt16) : Option Ipv6 :=
  if h : groups.length = 8 then some ⟨⟨groups.toArray, by simpa using h⟩⟩ else none

/-! ### Reading -/

/-- A group: one to four hexadecimal digits. -/
def group? (s : List Char) : Option UInt16 :=
  if s.length ≤ 4 then (Text.hexadecimal? s).map Nat.toUInt16 else none

/-- Two octets as a group. -/
def groupOfOctets (high low : UInt8) : UInt16 := (high.toNat * 256 + low.toNat).toUInt16

/-- The groups at the end of an address: one group, or two in the form of version 4. -/
def lastGroups? (s : List Char) : Option (List UInt16) :=
  match Ipv4.parse? s with
  | some ip => some [groupOfOctets ip.a ip.b, groupOfOctets ip.c ip.d]
  | none => (group? s).map ([·])

/-- Groups with colons between them, none for the empty text. -/
def groups? (s : List Char) : Option (List UInt16) :=
  if s.isEmpty then some [] else (Text.pieces ':' s).mapM group?

/-- Groups with colons between them that end an address. -/
def endGroups? (s : List Char) : Option (List UInt16) :=
  if s.isEmpty then some []
  else
    let items := Text.pieces ':' s
    match items.dropLast.mapM group?, items.getLast?.bind lastGroups? with
    | some front, some back => some (front ++ back)
    | _, _ => none

/-- The address that a text denotes. What `::` stands for is at least one group. -/
def parse? (s : List Char) : Option Ipv6 :=
  match Text.cutAt? [':', ':'] s with
  | none => (endGroups? s).bind ofGroups?
  | some (front, back) =>
    match groups? front, endGroups? back with
    | some front, some back =>
      if front.length + back.length < 8 then
        ofGroups? (front ++ List.replicate (8 - front.length - back.length) 0 ++ back)
      else none
    | _, _ => none

/-! ### Writing -/

/-- The number of zero groups at the start. -/
def leadingZeros (groups : List UInt16) : Nat := (groups.takeWhile (· = 0)).length

/-- Where the first longest run of zero groups begins, and how long it is. -/
def longestZeros (groups : List UInt16) : Nat × Nat :=
  (List.range groups.length).foldl
    (fun best i =>
      let n := leadingZeros (groups.drop i)
      if best.2 < n then (i, n) else best)
    (0, 0)

/-- Groups as text. -/
def groupsText (groups : List UInt16) : String :=
  ":".intercalate (groups.map fun g => String.ofList (Nat.toDigits 16 g.toNat))

/-- An address as text. One that stands for an address of version 4 is written with it. -/
def text (ip : Ipv6) : String :=
  match ip.groups.toList with
  | [0, 0, 0, 0, 0, 0xFFFF, high, low] =>
    s!"::ffff:{(Ipv4.ofNat (high.toNat * 65536 + low.toNat)).text}"
  | groups =>
    let (start, count) := longestZeros groups
    if 1 < count then
      s!"{groupsText (groups.take start)}::{groupsText (groups.drop (start + count))}"
    else groupsText groups

end Ipv6

end HttpEcho
