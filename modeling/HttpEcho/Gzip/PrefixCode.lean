import HttpEcho.Gzip.Bits

/-!
# Canonical codes

The codes of deflate are given by the lengths of their code words alone: the words are handed out
in order of length, and among words of one length in order of the symbols. `CodeTree.ofLengths`
builds the decoding tree, `CodeTree.decode` walks it.

Lengths may leave words over or ask for too many. `complete` tells lengths that use every word
exactly once; a code with at most one word is the only other one that is let through.
-/

namespace HttpEcho

/-- Why compressed data cannot be read on. -/
inductive InflateError where
  /-- The data is malformed. -/
  | corrupt
  /-- The data ends too early. -/
  | truncated
  deriving DecidableEq, Repr

/-- A decoding tree. -/
inductive CodeTree where
  /-- No word begins here. -/
  | empty
  /-- A word ends here. -/
  | symbol (s : Nat)
  /-- The next bit decides. -/
  | branch (zero one : CodeTree)
  deriving DecidableEq, Repr

namespace CodeTree

/-- The longest code word. -/
def maxLength : Nat := 15

/-- The symbols that have a word, each behind the length of its word, in the order in which words
are handed out. -/
def ordered (lengths : List Nat) : List (Nat × Nat) :=
  (List.range maxLength).flatMap fun n =>
    (lengths.zipIdx.filter fun p => p.1 = n + 1).map fun p => (n + 1, p.2)

/-- The tree below a place from which words may be `room` bits longer, and the symbols that found
no place in it. -/
def build : Nat → List (Nat × Nat) → CodeTree × List (Nat × Nat)
  | _, [] => (empty, [])
  | 0, (_, s) :: rest => (symbol s, rest)
  | room + 1, (n, s) :: rest =>
    if n + (room + 1) = maxLength then (symbol s, rest)
    else
      let (zero, rest) := build room ((n, s) :: rest)
      let (one, rest) := build room rest
      (branch zero one, rest)

/-- How many words of the greatest length the words together stand for. -/
def weight (lengths : List Nat) : Nat :=
  ((lengths.filter (0 < ·)).map fun n => Nat.pow 2 (maxLength - n)).foldr (· + ·) 0

/-- Whether the lengths use every word. -/
def complete (lengths : List Nat) : Bool := weight lengths = Nat.pow 2 maxLength

/-- The decoding tree of a code with the given lengths, by symbol; 0 means that a symbol has no
word. -/
def ofLengths (lengths : List Nat) : CodeTree := (build maxLength (ordered lengths)).1

/-- The decoding tree, if the code is complete or has at most one word. -/
def ofLengths? (lengths : List Nat) : Option CodeTree :=
  if complete lengths || (lengths.filter (0 < ·)).length ≤ 1 then some (ofLengths lengths)
  else none

/-- Walk down a tree. -/
def walk : CodeTree → Bits → Except InflateError (Nat × Bits)
  | empty, _ => .error .corrupt
  | symbol s, bits => .ok (s, bits)
  | branch zero one, bits =>
    match bits.next? with
    | none => .error .truncated
    | some (false, rest) => zero.walk rest
    | some (true, rest) => one.walk rest

/-- The place one bit below the root. -/
def child (bit : Bool) : CodeTree → CodeTree
  | branch zero one => if bit then one else zero
  | _ => empty

/-- Read one code word. At least one bit is read. -/
def decode (tree : CodeTree) (bits : Bits) : Except InflateError (Nat × Bits) :=
  match bits.next? with
  | none => .error .truncated
  | some (bit, rest) => (tree.child bit).walk rest

theorem size_walk {tree : CodeTree} {bits rest : Bits} {s : Nat}
    (h : tree.walk bits = .ok (s, rest)) : rest.size ≤ bits.size := by
  induction tree generalizing bits with
  | empty => simp [walk] at h
  | symbol _ =>
    simp only [walk, Except.ok.injEq, Prod.mk.injEq] at h
    exact h.2 ▸ Nat.le_refl _
  | branch zero one ihz iho =>
    rw [walk] at h
    split at h
    · simp at h
    · rename_i hn
      have := Bits.size_next? hn
      have := ihz h
      omega
    · rename_i hn
      have := Bits.size_next? hn
      have := iho h
      omega

/-- Reading a code word takes at least one bit. -/
theorem size_decode {tree : CodeTree} {bits rest : Bits} {s : Nat}
    (h : tree.decode bits = .ok (s, rest)) : rest.size < bits.size := by
  unfold decode at h
  split at h
  · simp at h
  · rename_i hn
    have := Bits.size_next? hn
    have := size_walk h
    omega

end CodeTree

end HttpEcho
