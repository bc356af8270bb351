import HttpEcho.Gzip.PrefixCode

/-!
# Deflate

Deflated data is a sequence of blocks. A block is stored, or its literals and back references are
written in prefix codes, which are fixed or described at the start of the block. This module reads
codes and back references; `Deflate.Inflater` writes out what they stand for.

A back reference copies from what has been written. It may reach up to 32 KiB back, also to before
the start of the output, where the window holds zeros.
-/

namespace HttpEcho.Deflate

/-- The smallest length that each length symbol stands for, and how many extra bits add to it. -/
def lengthTable : List (Nat × Nat) :=
  [(3, 0), (4, 0), (5, 0), (6, 0), (7, 0), (8, 0), (9, 0), (10, 0), (11, 1), (13, 1), (15, 1),
    (17, 1), (19, 2), (23, 2), (27, 2), (31, 2), (35, 3), (43, 3), (51, 3), (59, 3), (67, 4),
    (83, 4), (99, 4), (115, 4), (131, 5), (163, 5), (195, 5), (227, 5), (258, 0)]

/-- The smallest distance that each distance symbol stands for, and how many extra bits add to
it. -/
def distanceTable : List (Nat × Nat) :=
  [(1, 0), (2, 0), (3, 0), (4, 0), (5, 1), (7, 1), (9, 2), (13, 2), (17, 3), (25, 3), (33, 4),
    (49, 4), (65, 5), (97, 5), (129, 6), (193, 6), (257, 7), (385, 7), (513, 8), (769, 8),
    (1025, 9), (1537, 9), (2049, 10), (3073, 10), (4097, 11), (6145, 11), (8193, 12), (12289, 12),
    (16385, 13), (24577, 13)]

/-- A number of `n` bits. -/
def readBits (n : Nat) (bits : Bits) : Except InflateError (Nat × Bits) :=
  match bits.read? n with
  | none => .error .truncated
  | some r => .ok r

/-- The value that a symbol with an entry of a table and its extra bits stands for. -/
def readValue (row? : Option (Nat × Nat)) (bits : Bits) : Except InflateError (Nat × Bits) :=
  match row? with
  | none => .error .corrupt
  | some (base, extra) => (readBits extra bits).map fun r => (base + r.1, r.2)

/-- A back reference. -/
structure Reference where
  length : Nat
  distance : Nat
  deriving DecidableEq, Repr

/-- What a symbol of the literal code stands for. -/
inductive Token where
  /-- An octet. -/
  | literal (octet : UInt8)
  /-- The end of the block. -/
  | stop
  /-- A back reference, whose length has its place in the table. -/
  | reference (place : Nat)
  deriving DecidableEq, Repr

/-- What a symbol of the literal code stands for. -/
def Token.ofSymbol (symbol : Nat) : Token :=
  if symbol < 256 then .literal symbol.toUInt8
  else if symbol = 256 then .stop
  else .reference (symbol - 257)

/-- Read on after a symbol for a length. -/
def readReference (distances : CodeTree) (place : Nat) (bits : Bits) :
    Except InflateError (Reference × Bits) :=
  match readValue lengthTable[place]? bits with
  | .error e => .error e
  | .ok (length, bits) =>
    match distances.decode bits with
    | .error e => .error e
    | .ok (symbol, bits) =>
      (readValue distanceTable[symbol]? bits).map fun r => (⟨length, r.1⟩, r.2)

/-- The octet that stands `distance` before the end of the output. -/
def lookBack (out : Array UInt8) (distance : Nat) : UInt8 :=
  if distance ≤ out.size then out.getD (out.size - distance) 0 else 0

/-- Copy octets from `distance` back, one by one, so that a copy may overlap itself. -/
def copy (distance : Nat) : Nat → Array UInt8 → Array UInt8
  | 0, out => out
  | n + 1, out => copy distance n (out.push (lookBack out distance))

theorem size_readBits {n v : Nat} {bits rest : Bits} (h : readBits n bits = .ok (v, rest)) :
    rest.size + n = bits.size := by
  unfold readBits at h
  split at h
  · simp at h
  · rename_i r hr
    obtain rfl := Except.ok.inj h
    exact Bits.size_read? hr

theorem size_readValue {row? : Option (Nat × Nat)} {v : Nat} {bits rest : Bits}
    (h : readValue row? bits = .ok (v, rest)) : rest.size ≤ bits.size := by
  unfold readValue at h
  split at h
  · simp at h
  · rename_i base extra
    cases hr : readBits extra bits with
    | error e => rw [hr] at h; simp [Except.map] at h
    | ok r =>
      rw [hr] at h
      simp only [Except.map, Except.ok.injEq, Prod.mk.injEq] at h
      have := size_readBits hr
      rw [← h.2]
      omega

theorem size_readReference {distances : CodeTree} {place : Nat} {r : Reference}
    {bits rest : Bits} (h : readReference distances place bits = .ok (r, rest)) :
    rest.size ≤ bits.size := by
  unfold readReference at h
  split at h
  · simp at h
  · rename_i length bits₁ h₁
    split at h
    · simp at h
    · rename_i symbol bits₂ h₂
      have := size_readValue h₁
      have := CodeTree.size_decode h₂
      cases hr : readValue distanceTable[symbol]? bits₂ with
      | error e => rw [hr] at h; simp [Except.map] at h
      | ok v =>
        rw [hr] at h
        simp only [Except.map, Except.ok.injEq, Prod.mk.injEq] at h
        have := size_readValue hr
        rw [← h.2]
        omega

/-! ### Codes -/

/-- The code lengths of literals in blocks with fixed codes. -/
def fixedLiteralLengths : List Nat :=
  List.replicate 144 8 ++ List.replicate 112 9 ++ List.replicate 24 7 ++ List.replicate 8 8

/-- The code lengths of distances in blocks with fixed codes. -/
def fixedDistanceLengths : List Nat := List.replicate 32 5

/-- The fixed code of literals. -/
def fixedLiterals : CodeTree := .ofLengths fixedLiteralLengths

/-- The fixed code of distances. -/
def fixedDistances : CodeTree := .ofLengths fixedDistanceLengths

/-- The order in which the code lengths of the length code are given. -/
def lengthCodeOrder : List Nat :=
  [16, 17, 18, 0, 8, 7, 9, 6, 10, 5, 11, 4, 12, 3, 13, 2, 14, 1, 15]

/-- Read `n` numbers of three bits. -/
def readTriples : Nat → Bits → Except InflateError (List Nat × Bits)
  | 0, bits => .ok ([], bits)
  | n + 1, bits =>
    match readBits 3 bits with
    | .error e => .error e
    | .ok (v, bits) => (readTriples n bits).map fun r => (v :: r.1, r.2)

/-- The code lengths of the length code, by symbol, from the order in which they are given. -/
def lengthCodeLengths (given : List Nat) : List Nat :=
  (List.range 19).map fun symbol => ((lengthCodeOrder.zip given).lookup symbol).getD 0

/-- What a symbol of the length code adds to the code lengths: the symbols up to 15 are lengths,
16 repeats the last length, 17 and 18 give runs of zeros. -/
def readRun (last? : Option Nat) (symbol : Nat) (bits : Bits) :
    Except InflateError (List Nat × Bits) :=
  if symbol < 16 then .ok ([symbol], bits)
  else if symbol = 16 then
    match last? with
    | none => .error .corrupt
    | some last => (readBits 2 bits).map fun r => (List.replicate (r.1 + 3) last, r.2)
  else if symbol = 17 then
    (readBits 3 bits).map fun r => (List.replicate (r.1 + 3) 0, r.2)
  else (readBits 7 bits).map fun r => (List.replicate (r.1 + 11) 0, r.2)

theorem size_readRun {last? : Option Nat} {symbol : Nat} {run : List Nat} {bits rest : Bits}
    (h : readRun last? symbol bits = .ok (run, rest)) : rest.size ≤ bits.size := by
  have key : ∀ (n : Nat) (f : Nat → List Nat),
      (readBits n bits).map (fun r => (f r.1, r.2)) = .ok (run, rest) →
        rest.size ≤ bits.size := by
    intro n f h
    cases hr : readBits n bits with
    | error e => rw [hr] at h; simp [Except.map] at h
    | ok r =>
      rw [hr] at h
      simp only [Except.map, Except.ok.injEq, Prod.mk.injEq] at h
      have := size_readBits hr
      rw [← h.2]
      omega
  unfold readRun at h
  split at h
  · simp only [Except.ok.injEq, Prod.mk.injEq] at h
    exact h.2 ▸ Nat.le_refl _
  split at h
  · split at h
    · simp at h
    · rename_i last
      exact key 2 (fun v => List.replicate (v + 3) last) h
  split at h
  · exact key 3 (fun v => List.replicate (v + 3) 0) h
  · exact key 7 (fun v => List.replicate (v + 11) 0) h

/-- Read code lengths until there are `total`; a run may not go beyond that. The lengths read so
far are given with the last one first. -/
def readLengths (code : CodeTree) (total : Nat) (lengths : List Nat) (bits : Bits) :
    Except InflateError (List Nat × Bits) :=
  if total ≤ lengths.length then
    if lengths.length = total then .ok (lengths.reverse, bits) else .error .corrupt
  else
    match _hd : code.decode bits with
    | .error e => .error e
    | .ok (symbol, rest) =>
      match _hr : readRun lengths.head? symbol rest with
      | .error e => .error e
      | .ok (run, rest) => readLengths code total (run.reverse ++ lengths) rest
termination_by bits.size
decreasing_by
  have := CodeTree.size_decode _hd
  have := size_readRun _hr
  omega

theorem size_readTriples {n : Nat} {values : List Nat} {bits rest : Bits}
    (h : readTriples n bits = .ok (values, rest)) : rest.size ≤ bits.size := by
  induction n generalizing bits values rest with
  | zero =>
    simp only [readTriples, Except.ok.injEq, Prod.mk.injEq] at h
    exact h.2 ▸ Nat.le_refl _
  | succ n ih =>
    rw [readTriples] at h
    split at h
    · simp at h
    · rename_i v bits' hr
      cases ht : readTriples n bits' with
      | error e => rw [ht] at h; simp [Except.map] at h
      | ok r =>
        rw [ht] at h
        simp only [Except.map, Except.ok.injEq, Prod.mk.injEq] at h
        have := size_readBits hr
        have := ih ht
        rw [← h.2]
        omega

theorem size_readLengths {code : CodeTree} {total : Nat} {lengths all : List Nat}
    {bits rest : Bits} (h : readLengths code total lengths bits = .ok (all, rest)) :
    rest.size ≤ bits.size := by
  fun_induction readLengths code total lengths bits with
  | case1 =>
    simp only [Except.ok.injEq, Prod.mk.injEq] at h
    exact h.2 ▸ Nat.le_refl _
  | case2 => simp at h
  | case3 => simp at h
  | case4 => simp at h
  | case5 _ _ _ _ _ hd _ _ hr ih =>
    have := CodeTree.size_decode hd
    have := size_readRun hr
    have := ih h
    omega

/-- The two codes that a block describes at its start. -/
structure Codes where
  literals : CodeTree
  distances : CodeTree
  deriving DecidableEq, Repr

namespace Codes

/-- The codes with the given lengths, of which the first `literals` are those of the literal
code. Neither may ask for too many words or leave words over. -/
def ofLengths (literals : Nat) (lengths : List Nat) : Except InflateError Codes :=
  match CodeTree.ofLengths? (lengths.take literals),
    CodeTree.ofLengths? (lengths.drop literals) with
  | some literals, some distances => .ok { literals, distances }
  | _, _ => .error .corrupt

/-- The codes of blocks that do not describe theirs. -/
def fixed : Codes := { literals := fixedLiterals, distances := fixedDistances }

end Codes

/-- How many code lengths a block describes. -/
structure CodeCounts where
  literals : Nat
  distances : Nat
  lengthCode : Nat
  deriving DecidableEq, Repr

/-- Read how many code lengths follow. There are at most 286 for literals and 30 for distances. -/
def readCounts (bits : Bits) : Except InflateError (CodeCounts × Bits) :=
  match readBits 14 bits with
  | .error e => .error e
  | .ok (v, bits) =>
    let counts : CodeCounts := ⟨v % 32 + 257, v / 32 % 32 + 1, v / 1024 + 4⟩
    if 286 < counts.literals ∨ 30 < counts.distances then .error .corrupt else .ok (counts, bits)

/-- Read the description of the codes of a block. -/
def readCodes (bits : Bits) : Except InflateError (Codes × Bits) :=
  match readCounts bits with
  | .error e => .error e
  | .ok (counts, bits) =>
    match readTriples counts.lengthCode bits with
    | .error e => .error e
    | .ok (given, bits) =>
      let lengthCode := lengthCodeLengths given
      if CodeTree.complete lengthCode then
        match readLengths (.ofLengths lengthCode) (counts.literals + counts.distances) [] bits with
        | .error e => .error e
        | .ok (lengths, bits) =>
          (Codes.ofLengths counts.literals lengths).map fun codes => (codes, bits)
      else .error .corrupt

theorem size_readCodes {codes : Codes} {bits rest : Bits}
    (h : readCodes bits = .ok (codes, rest)) : rest.size ≤ bits.size := by
  unfold readCodes at h
  split at h
  · simp at h
  rename_i counts bits₁ hc
  have h₁ : bits₁.size ≤ bits.size := by
    unfold readCounts at hc
    split at hc
    · simp at hc
    · rename_i hb
      have := size_readBits hb
      dsimp only at hc
      split at hc
      · simp at hc
      · simp only [Except.ok.injEq, Prod.mk.injEq] at hc
        rw [← hc.2]
        omega
  split at h
  · simp at h
  rename_i given bits₂ ht
  have h₂ := size_readTriples ht
  dsimp only at h
  split at h
  · split at h
    · simp at h
    rename_i lengths bits₃ hl
    have h₃ := size_readLengths hl
    cases ho : Codes.ofLengths counts.literals lengths with
    | error e => rw [ho] at h; simp [Except.map] at h
    | ok c =>
      rw [ho] at h
      simp only [Except.map, Except.ok.injEq, Prod.mk.injEq] at h
      rw [← h.2]
      omega
  · simp at h

end HttpEcho.Deflate
