import HttpEcho.Gzip.Deflate

/-!
# Inflaters

An `Inflater` stands at a place in deflated data and has written out what the data holds up to
there. A step takes it past the front of a block, a literal, a back reference or a stored block
(`Inflater.step?`); data that is malformed lets it go no further. `Inflater.fill?` goes on until
more than so many octets are written out, so that data which holds a lot need not be written out at
once.
-/

namespace HttpEcho.Deflate

/-- A place in deflated data. -/
inductive Place where
  /-- The front of a block. -/
  | block (bits : Bits)
  /-- A symbol in a coded block. -/
  | coded (isLast : Bool) (codes : Codes) (bits : Bits)
  /-- The end of the last block, with the octets that follow. -/
  | finished (rest : Bytes)
  /-- The end of data that ends too early. -/
  | starved
  deriving DecidableEq, Repr

namespace Place

/-- Whether nothing is left to be written out. -/
def isEnd : Place → Bool
  | block _ | coded .. => false
  | finished _ | starved => true

/-- How many bits there are to go on with. -/
def size : Place → Nat
  | block bits | coded _ _ bits => bits.size + 1
  | finished _ | starved => 0

/-- The place behind a block. -/
def behind (isLast : Bool) (bits : Bits) : Place :=
  if isLast then finished bits.align else block bits

theorem size_behind_le (isLast : Bool) (bits : Bits) :
    (behind isLast bits).size ≤ bits.size + 1 := by
  cases isLast <;> simp [behind, size]

end Place

/-- What has been written out of deflated data, and the place that was reached. -/
structure Inflater where
  out : Array UInt8
  place : Place
  deriving DecidableEq, Repr

namespace Inflater

/-- The inflater of data that nothing has been written out of. -/
def ofBytes (bytes : Bytes) : Inflater := ⟨#[], .block (.ofBytes bytes)⟩

/-- What becomes of an inflater that cannot read on. -/
def ofError (out : Array UInt8) : InflateError → Option Inflater
  | .corrupt => none
  | .truncated => some ⟨out, .starved⟩

/-- Take one symbol of a coded block. -/
def stepCoded? (isLast : Bool) (codes : Codes) (out : Array UInt8) (bits : Bits) :
    Option Inflater :=
  match codes.literals.decode bits with
  | .error e => ofError out e
  | .ok (symbol, rest) =>
    match Token.ofSymbol symbol with
    | .stop => some ⟨out, .behind isLast rest⟩
    | .literal octet => some ⟨out.push octet, .coded isLast codes rest⟩
    | .reference place =>
      match readReference codes.distances place rest with
      | .error e => ofError out e
      | .ok (reference, rest) =>
        some ⟨copy reference.distance reference.length out, .coded isLast codes rest⟩

/-- Take a stored block: its length and the complement of its length, each in two octets, and its
octets. -/
def stepStored? (isLast : Bool) (out : Array UInt8) (bytes : Bytes) : Option Inflater :=
  match bytes with
  | a :: b :: c :: d :: rest =>
    let length := a.toNat + 256 * b.toNat
    if length + (c.toNat + 256 * d.toNat) ≠ 0xFFFF then none
    else
      let stored := rest.take length
      if stored.length < length then some ⟨out ++ stored, .starved⟩
      else some ⟨out ++ stored, .behind isLast (.ofBytes (rest.drop length))⟩
  | _ => some ⟨out, .starved⟩

/-- Take the front of a block, which is three bits that tell whether it is the last one and of which
kind it is, and what its kind has in front. -/
def stepBlock? (out : Array UInt8) (bits : Bits) : Option Inflater :=
  match readBits 3 bits with
  | .error e => ofError out e
  | .ok (head, rest) =>
    let isLast := head % 2 = 1
    match head / 2 with
    | 0 => stepStored? isLast out rest.align
    | 1 => some ⟨out, .coded isLast .fixed rest⟩
    | 2 =>
      match readCodes rest with
      | .error e => ofError out e
      | .ok (codes, rest) => some ⟨out, .coded isLast codes rest⟩
    | _ => none

/-- Take one step, if the data allows it. -/
def step? (s : Inflater) : Option Inflater :=
  match s.place with
  | .block bits => stepBlock? s.out bits
  | .coded isLast codes bits => stepCoded? isLast codes s.out bits
  | .finished _ | .starved => some s

/-! ### Steps use up the data -/

theorem size_ofError {out : Array UInt8} {e : InflateError} {s : Inflater}
    (h : ofError out e = some s) : s.place.size = 0 := by
  cases e <;> simp only [ofError, Option.some.injEq, reduceCtorEq] at h
  rw [← h]
  rfl

theorem size_stepCoded? {isLast : Bool} {codes : Codes} {out : Array UInt8} {bits : Bits}
    {s : Inflater} (h : stepCoded? isLast codes out bits = some s) :
    s.place.size < (Place.coded isLast codes bits).size := by
  unfold stepCoded? at h
  split at h
  · rw [size_ofError h]
    exact Nat.succ_pos _
  rename_i symbol rest hdecode
  have hlt := CodeTree.size_decode hdecode
  split at h
  · obtain rfl := Option.some.inj h
    exact Nat.lt_of_le_of_lt (Place.size_behind_le _ _) (Nat.succ_lt_succ hlt)
  · obtain rfl := Option.some.inj h
    exact Nat.succ_lt_succ hlt
  split at h
  · rw [size_ofError h]
    exact Nat.succ_pos _
  · rename_i hread
    obtain rfl := Option.some.inj h
    exact Nat.succ_lt_succ (Nat.lt_of_le_of_lt (size_readReference hread) hlt)

theorem size_stepStored? {isLast : Bool} {out : Array UInt8} {bytes : Bytes} {s : Inflater}
    (h : stepStored? isLast out bytes = some s) : s.place.size ≤ (Bits.ofBytes bytes).size + 1 := by
  unfold stepStored? at h
  split at h
  · dsimp only at h
    split at h
    · cases h
    split at h
    · obtain rfl := Option.some.inj h
      exact Nat.zero_le _
    · obtain rfl := Option.some.inj h
      refine Nat.le_trans (Place.size_behind_le _ _) (Nat.succ_le_succ ?_)
      simp only [Bits.size, Bits.ofBytes, List.length_drop, List.length_cons]
      omega
  · obtain rfl := Option.some.inj h
    exact Nat.zero_le _

theorem size_stepBlock? {out : Array UInt8} {bits : Bits} {s : Inflater}
    (h : stepBlock? out bits = some s) : s.place.size < (Place.block bits).size := by
  unfold stepBlock? at h
  split at h
  · rw [size_ofError h]
    exact Nat.succ_pos _
  rename_i head rest hread
  have hlt : rest.size + 3 = bits.size := size_readBits hread
  change s.place.size < bits.size + 1
  dsimp only at h
  split at h
  · have := size_stepStored? h
    have := Bits.size_align_le rest
    omega
  · obtain rfl := Option.some.inj h
    change rest.size + 1 < _
    omega
  · split at h
    · rw [size_ofError h]
      exact Nat.succ_pos _
    · rename_i hcodes
      have := size_readCodes hcodes
      obtain rfl := Option.some.inj h
      change _ + 1 < _
      omega
  · cases h

/-- A step uses up some of the data. -/
theorem size_step? {s s' : Inflater} (h : s.step? = some s') (hend : s.place.isEnd = false) :
    s'.place.size < s.place.size := by
  obtain ⟨out, place⟩ := s
  cases place with
  | block bits => exact size_stepBlock? h
  | coded isLast codes bits => exact size_stepCoded? h
  | finished | starved => cases hend

/-- Write out until there are more than `goal` octets or nothing is left to be written out. Data
that is found to be malformed before that gives nothing. -/
def fill? (goal : Nat) (s : Inflater) : Option Inflater :=
  if _hstop : goal < s.out.size ∨ s.place.isEnd then some s
  else
    match _hstep : s.step? with
    | none => none
    | some s' => fill? goal s'
termination_by s.place.size
decreasing_by
  exact size_step? _hstep (Bool.eq_false_iff.2 fun hend => _hstop (.inr hend))

end Inflater

end HttpEcho.Deflate
