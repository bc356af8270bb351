import HttpEcho.Proofs.Head.Arrival

/-!
# Blank lines in front of a head

Blank lines in front of a head are no part of it. As long as there is room for them within the limit
(`Head.HasRoom`), a buffer is read alike with them and without them, but for the octets that they
take (`Head.parse_blank_append`), and blank lines alone are never a head, wherever they are cut
(`Head.parse_of_append_eq_blank`).
-/

namespace HttpEcho

theorem Bytes.blank_add (k j : Nat) : blank (k + j) = blank k ++ blank j := by
  rw [blank, ← List.replicate_append_replicate, List.flatten_append, blank, blank]

namespace Head

variable {limit k : Nat} {buffer rest : Bytes}

/-- There is room within the limit for blank lines in front of a stream: the head at its start, with
all of its ending but the last octet, does not pass the limit, or, if there is no whole head, the
stream does not. -/
def HasRoom (limit k : Nat) (stream : Bytes) : Prop :=
  match size? stream with
  | some n => 2 * k + n + 3 ≤ limit
  | none => 2 * k + stream.length ≤ limit

/-- There is no less room in front of the beginning of a stream. -/
theorem HasRoom.of_append {more : Bytes} (h : HasRoom limit k (buffer ++ more)) :
    HasRoom limit k buffer := by
  unfold HasRoom at h ⊢
  cases hsize : size? buffer with
  | some n => rwa [size?_append hsize] at h
  | none =>
    dsimp only
    cases hmore : size? (buffer ++ more) with
    | some n =>
      rw [hmore] at h
      dsimp only at h
      have hlt := length_lt_of_size?_append hsize hmore
      omega
    | none =>
      rw [hmore] at h
      dsimp only at h
      rw [List.length_append] at h
      omega

/-- **Blank lines in front of a buffer** do not change how it is read, as long as there is room for
them. -/
theorem parse_blank_append (h : HasRoom limit k buffer) :
    parse limit (Bytes.blank k ++ buffer) =
      (parse limit buffer).map fun (head, n) => (head, 2 * k + n) := by
  obtain ⟨j, -, hbuffer, hrest⟩ := Bytes.exists_blank buffer
  generalize buffer.drop buffer.blankLines = rest at hbuffer hrest
  subst hbuffer
  rw [HasRoom, size?_blank_append hrest] at h
  rw [← List.append_assoc, ← Bytes.blank_add, parse_eq, parse_eq, size?_blank_append hrest,
    size?_blank_append hrest]
  cases hsearch : Bytes.search headEnd rest with
  | none =>
    rw [hsearch] at h
    simp only [Option.map_none, List.length_append, Bytes.length_blank] at h ⊢
    rw [if_neg (by omega), if_neg (by omega)]
    rfl
  | some m =>
    rw [hsearch] at h
    simp only [Option.map_some] at h ⊢
    rw [if_neg (by omega), if_neg (by omega), text_blank_append hrest, text_blank_append hrest]
    cases ofLines (Bytes.lines (rest.take m)) with
    | error error => rfl
    | ok head =>
      have hsize : 2 * (k + j) + m + 4 = 2 * k + (2 * j + m + 4) := by omega
      exact congrArg (fun n => Except.ok (head, n)) hsize

/-- Empty lines are no head. -/
theorem size?_blank (k : Nat) : size? (Bytes.blank k) = none := by
  have hsize := @size?_blank_append [] (by decide) k
  rwa [List.append_nil] at hsize

/-- The blank lines at the front of a stream are within the limit as well. -/
theorem HasRoom.two_mul_le {j : Nat} {stream : Bytes}
    (h : HasRoom limit k (Bytes.blank j ++ stream)) :
    2 * (k + j) ≤ limit := by
  have hblank := h.of_append
  rw [HasRoom, size?_blank] at hblank
  dsimp only at hblank
  rw [Bytes.length_blank] at hblank
  omega

/-- **The beginning of blank lines** is no head yet. -/
theorem parse_of_append_eq_blank {more : Bytes} (h : buffer ++ more = Bytes.blank k)
    (hlimit : 2 * k ≤ limit) : parse limit buffer = .error .incomplete := by
  have hsize : size? buffer = none := by
    cases hsize : size? buffer with
    | none => rfl
    | some n =>
      have hmore := size?_append hsize more
      rw [h, size?_blank] at hmore
      cases hmore
  have hlength := congrArg List.length h
  rw [List.length_append, Bytes.length_blank] at hlength
  rw [parse_of_size?_eq_none limit hsize, if_neg (by omega)]

/-- Nor are blank lines. -/
theorem parse_blank (hlimit : 2 * k ≤ limit) : parse limit (Bytes.blank k) = .error .incomplete :=
  parse_of_append_eq_blank (List.append_nil _) hlimit

end Head

end HttpEcho
