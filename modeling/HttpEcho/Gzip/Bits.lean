import HttpEcho.Bytes

/-!
# Bit streams

Compressed data is a stream of bits, taken from each octet with the least significant bit first.
`Bits.toList` is the stream as a list; reading takes bits off its front.
-/

namespace HttpEcho

/-- A stream of bits: those of an octet that is partly read, and the octets that follow. -/
structure Bits where
  pending : List Bool
  bytes : Bytes
  deriving DecidableEq, Repr

namespace Bits

/-- The bits of an octet, the least significant first. -/
def ofOctet (b : UInt8) : List Bool := (List.range 8).map b.toNat.testBit

/-- The stream that octets hold. -/
def ofBytes (bytes : Bytes) : Bits := ⟨[], bytes⟩

/-- All bits of the stream. -/
def toList (s : Bits) : List Bool := s.pending ++ s.bytes.flatMap ofOctet

/-- How many bits there are. -/
def size (s : Bits) : Nat := s.pending.length + 8 * s.bytes.length

/-- The first bit and the rest. -/
def next? (s : Bits) : Option (Bool × Bits) :=
  match s.pending, s.bytes with
  | bit :: pending, bytes => some (bit, ⟨pending, bytes⟩)
  | [], b :: bytes => some (b.toNat.testBit 0, ⟨(ofOctet b).tail, bytes⟩)
  | [], [] => none

/-- A number of `n` bits, the least significant first. -/
def read? : Nat → Bits → Option (Nat × Bits)
  | 0, s => some (0, s)
  | n + 1, s => do
    let (bit, s) ← s.next?
    let (high, s) ← s.read? n
    some (bit.toNat + 2 * high, s)

/-- The octets from the next octet boundary on. -/
def align (s : Bits) : Bytes := s.bytes

theorem size_next? {s rest : Bits} {bit : Bool} (h : s.next? = some (bit, rest)) :
    rest.size + 1 = s.size := by
  obtain ⟨pending, bytes⟩ := s
  cases pending with
  | cons b pending =>
    simp only [next?, Option.some.injEq, Prod.mk.injEq] at h
    simp only [← h.2, size, List.length_cons]
    omega
  | nil =>
    cases bytes with
    | nil => simp [next?] at h
    | cons b bytes =>
      simp only [next?, Option.some.injEq, Prod.mk.injEq] at h
      simp only [← h.2, size, ofOctet, List.length_tail, List.length_map, List.length_range,
        List.length_cons, List.length_nil]
      omega

theorem size_read? {n v : Nat} {s rest : Bits} (h : s.read? n = some (v, rest)) :
    rest.size + n = s.size := by
  induction n generalizing s v with
  | zero => simp only [read?, Option.some.injEq, Prod.mk.injEq] at h; rw [← h.2]; rfl
  | succ n ih =>
    simp only [read?, Option.bind_eq_bind, Option.bind_eq_some_iff, Option.some.injEq,
      Prod.mk.injEq, Prod.exists] at h
    obtain ⟨bit, s', hn, high, s'', hr, -, rfl⟩ := h
    have := size_next? hn
    have := ih hr
    omega

/-- The bits left after alignment are among those that were there. -/
theorem size_align_le (s : Bits) : (ofBytes s.align).size ≤ s.size := by
  simp [ofBytes, align, size]

end Bits

end HttpEcho
