import HttpEcho.Gzip.Bits
import HttpEcho.Gzip.Member
import Mathlib.Algebra.Group.Nat.Defs

/-!
# Numbers and bits in octets

How numbers stand in octets (`Gzip.octets`), and bits (`Bits.pack`), and how bits are read from
there. A reader that has taken some bits of a text has the others before it, and the rest of its
octet as far as the bits fill whole octets (`Bits.At`); reading keeps that up, and so the reader
finds the next octet boundary where the text has it (`Bits.At.flatMap_align`).
-/

namespace HttpEcho

namespace Gzip

variable {bytes : Bytes}

/-! ### Numbers in octets -/

/-- A number in `n` octets, the least significant one first; what does not fit is left out. -/
def octets : Nat → Nat → Bytes
  | 0, _ => []
  | n + 1, value => UInt8.ofNat value :: octets n (value / 256)

@[simp] theorem length_octets (n value : Nat) : (octets n value).length = n := by
  induction n generalizing value with
  | zero => rfl
  | succ n ih => rw [octets, List.length_cons, ih]

theorem littleEndian_cons (b : UInt8) (bytes : Bytes) :
    littleEndian (b :: bytes) = b.toNat + 256 * littleEndian bytes := rfl

theorem littleEndian_octets (n value : Nat) : littleEndian (octets n value) = value % 256 ^ n := by
  induction n generalizing value with
  | zero => rw [Nat.pow_zero, Nat.mod_one]; rfl
  | succ n ih =>
    have hfirst : (UInt8.ofNat value).toNat = value % 256 := UInt8.toNat_ofNat'
    rw [octets, littleEndian_cons, ih, hfirst, Nat.pow_succ', Nat.mod_mul]

/-- Octets are those of the number that they hold. -/
theorem octets_littleEndian (bytes : Bytes) : octets bytes.length (littleEndian bytes) = bytes := by
  induction bytes with
  | nil => rfl
  | cons b bytes ih =>
    have hlt := b.toNat_lt
    have hdiv : (b.toNat + 256 * littleEndian bytes) / 256 = littleEndian bytes := by omega
    have hmod : UInt8.ofNat (b.toNat + 256 * littleEndian bytes) = b := by
      rw [← UInt8.toNat_inj, UInt8.toNat_ofNat']
      omega
    rw [List.length_cons, littleEndian_cons, octets, hdiv, hmod, ih]

theorem octets_mod (n value : Nat) : octets n (value % 256 ^ n) = octets n value := by
  have hoctets := octets_littleEndian (octets n value)
  rwa [length_octets, littleEndian_octets] at hoctets

/-- Octets write a number exactly if they are those of the number. -/
theorem littleEndian_eq_mod_iff {n : Nat} (h : bytes.length = n) (value : Nat) :
    littleEndian bytes = value % 256 ^ n ↔ bytes = octets n value := by
  constructor
  · intro heq
    rw [← octets_mod, ← heq, ← h, octets_littleEndian]
  · rintro rfl
    exact littleEndian_octets n value

end Gzip

namespace Bits

variable {s : Bits} {used : Nat} {bits text : List Bool} {bit : Bool} {bytes front : Bytes}

/-! ### Bits in octets -/

/-- The number that bits write, the least significant one first. -/
def value (bits : List Bool) : Nat := bits.foldr (fun bit n => bit.toNat + 2 * n) 0

/-- The octets that bits fill, from the least significant bit of each on. -/
def pack : List Bool → Bytes
  | b₀ :: b₁ :: b₂ :: b₃ :: b₄ :: b₅ :: b₆ :: b₇ :: bits =>
    UInt8.ofNat (value [b₀, b₁, b₂, b₃, b₄, b₅, b₆, b₇]) :: pack bits
  | _ => []

@[simp] theorem length_ofOctet (b : UInt8) : (ofOctet b).length = 8 := by
  rw [ofOctet, List.length_map, List.length_range]

theorem length_flatMap_ofOctet (bytes : Bytes) :
    (bytes.flatMap ofOctet).length = 8 * bytes.length := by
  induction bytes with
  | nil => rfl
  | cons b bytes ih =>
    rw [List.flatMap_cons, List.length_append, length_ofOctet, ih, List.length_cons, Nat.mul_succ,
      Nat.add_comm]

theorem ofOctet_value : ∀ b₀ b₁ b₂ b₃ b₄ b₅ b₆ b₇ : Bool,
    ofOctet (UInt8.ofNat (value [b₀, b₁, b₂, b₃, b₄, b₅, b₆, b₇])) =
      [b₀, b₁, b₂, b₃, b₄, b₅, b₆, b₇] := by
  decide +kernel

theorem value_ofOctet (b : UInt8) : value (ofOctet b) = b.toNat := by
  have key : ∀ n < 256, value (ofOctet (UInt8.ofNat n)) = n := by decide +kernel
  have hvalue := key b.toNat b.toNat_lt
  rwa [UInt8.ofNat_toNat] at hvalue

theorem ofOctet_inj {b c : UInt8} (h : ofOctet b = ofOctet c) : b = c := by
  rw [← UInt8.toNat_inj, ← value_ofOctet, h, value_ofOctet]

/-- Bits that fill whole octets are those of the octets. -/
theorem flatMap_ofOctet_pack (h : 8 ∣ text.length) : (pack text).flatMap ofOctet = text := by
  fun_induction pack text with
  | case1 b₀ b₁ b₂ b₃ b₄ b₅ b₆ b₇ bits ih =>
    have hrest : 8 ∣ bits.length := by
      simp only [List.length_cons] at h
      omega
    rw [List.flatMap_cons, ofOctet_value, ih hrest]
    rfl
  | case2 text hshort =>
    match text, h with
    | [], _ => rfl
    | [_], h | [_, _], h | [_, _, _], h | [_, _, _, _], h | [_, _, _, _, _], h
    | [_, _, _, _, _, _], h | [_, _, _, _, _, _, _], h =>
      simp only [List.length_cons, List.length_nil] at h
      omega
    | b₀ :: b₁ :: b₂ :: b₃ :: b₄ :: b₅ :: b₆ :: b₇ :: bits, _ =>
      exact absurd rfl (hshort b₀ b₁ b₂ b₃ b₄ b₅ b₆ b₇ bits)

/-- The bits of octets that come first are those of the first octets. -/
theorem exists_of_flatMap_ofOctet_eq
    (h : bytes.flatMap ofOctet = front.flatMap ofOctet ++ text) :
    ∃ rest, bytes = front ++ rest ∧ rest.flatMap ofOctet = text := by
  induction front generalizing bytes with
  | nil => exact ⟨bytes, rfl, h⟩
  | cons b front ih =>
    rw [List.flatMap_cons, List.append_assoc] at h
    cases bytes with
    | nil => cases h
    | cons c bytes =>
      rw [List.flatMap_cons] at h
      obtain ⟨hoctet, hrest⟩ := List.append_inj h (by rw [length_ofOctet, length_ofOctet])
      obtain ⟨rest, rfl, htext⟩ := ih hrest
      exact ⟨rest, by rw [ofOctet_inj hoctet, List.cons_append], htext⟩

theorem flatMap_ofOctet_inj (h : bytes.flatMap ofOctet = front.flatMap ofOctet) :
    bytes = front := by
  obtain ⟨rest, rfl, hrest⟩ :=
    exists_of_flatMap_ofOctet_eq (h.trans (List.append_nil (front.flatMap ofOctet)).symm)
  cases rest with
  | nil => exact List.append_nil front
  | cons b rest => cases hrest

/-! ### Reading bits -/

/-- After `used` bits the text is what is still to be read, and the bits left over of an octet are
those that are missing to its end. -/
structure At (used : Nat) (text : List Bool) (s : Bits) : Prop where
  toList_eq : s.toList = text
  pending_lt : s.pending.length < 8
  aligned : 8 ∣ used + s.pending.length

/-- A reader that begins at an octet boundary has the bits of the octets before it. -/
theorem at_ofBytes (bytes : Bytes) (h : 8 ∣ used) :
    At used (bytes.flatMap ofOctet) (ofBytes bytes) where
  toList_eq := rfl
  pending_lt := Nat.zero_lt_succ 7
  aligned := h

/-- The next bit is the first one of the text. -/
theorem At.exists_next (h : At used (bit :: text) s) :
    ∃ rest, s.next? = some (bit, rest) ∧ At (used + 1) text rest := by
  obtain ⟨pending, bytes⟩ := s
  obtain ⟨htext, hlt, haligned⟩ := h
  cases pending with
  | cons b pending =>
    obtain ⟨rfl, hrest⟩ := List.cons.inj htext
    rw [List.length_cons] at hlt haligned
    refine ⟨⟨pending, bytes⟩, rfl, hrest, Nat.lt_of_succ_lt hlt, ?_⟩
    rwa [Nat.add_assoc, Nat.add_comm 1]
  | nil =>
    cases bytes with
    | nil => cases htext
    | cons b bytes =>
      -- a new octet is begun
      obtain ⟨rfl, hrest⟩ := List.cons.inj htext
      have hlength : (Bits.mk (ofOctet b).tail bytes).pending.length = 7 := by
        rw [List.length_tail, length_ofOctet]
      have hused : 8 ∣ used := haligned
      exact ⟨⟨(ofOctet b).tail, bytes⟩, rfl, hrest, by omega, by omega⟩

/-- A number is read from its bits. -/
theorem At.exists_read (h : At used (bits ++ text) s) :
    ∃ rest, s.read? bits.length = some (value bits, rest) ∧ At (used + bits.length) text rest := by
  induction bits generalizing s used with
  | nil => exact ⟨s, rfl, h⟩
  | cons bit bits ih =>
    obtain ⟨next, hnext, hat⟩ := At.exists_next h
    obtain ⟨rest, hread, hrest⟩ := ih hat
    refine ⟨rest, ?_, ?_⟩
    · rw [List.length_cons, read?, hnext]
      simp only [Option.bind_eq_bind, Option.bind_some, hread]
      rfl
    · rwa [List.length_cons, Nat.add_comm bits.length, ← Nat.add_assoc]

/-- **The octets behind a boundary** are those whose bits follow the padding up to it. -/
theorem At.flatMap_align {padding : List Bool} (h : At used (padding ++ text) s)
    (hlt : padding.length < 8) (haligned : 8 ∣ used + padding.length) :
    s.align.flatMap ofOctet = text := by
  obtain ⟨htext, hlt', haligned'⟩ := h
  have hlength : s.pending.length = padding.length := by omega
  exact (List.append_inj htext hlength).2

end Bits

end HttpEcho
