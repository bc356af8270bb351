import HttpEcho.Head.Parser
import HttpEcho.Proofs.Bytes

/-!
# Where a head ends

`Head.size? buffer` is the size of the head at the start of a buffer, with the blank lines in front
of it and without its ending; it is what the size limit bounds. `Head.parse` depends on a buffer
through this size and the octets up to it alone (`Head.parse_eq`). A size once known does not change
when octets are appended (`Head.size?_append`), and a head whose size becomes known by octets that
are appended ends in them (`Head.length_lt_of_size?_append`).
-/

namespace HttpEcho.Head

/-- The size of the head at the start of a buffer, with the blank lines in front of it and without
its ending, if the ending is there. -/
def size? (buffer : Bytes) : Option Nat :=
  (Bytes.search headEnd (buffer.drop buffer.blankLines)).map (buffer.blankLines + ·)

/-- Reading a head in terms of its size. -/
theorem parse_eq (limit : Nat) (buffer : Bytes) :
    parse limit buffer =
      match size? buffer with
      | none => .error (if limit < buffer.length then .headersTooLarge else .incomplete)
      | some n =>
        if limit < n then .error .headersTooLarge
        else (ofLines (Bytes.lines ((buffer.take n).drop buffer.blankLines))).map (·, n + 4) := by
  rw [parse, size?]
  cases hsearch : Bytes.search headEnd (buffer.drop buffer.blankLines) with
  | none => simp only [Option.map_none]
  | some m =>
    have htext : (buffer.take (buffer.blankLines + m)).drop buffer.blankLines =
        (buffer.drop buffer.blankLines).take m := by
      rw [List.drop_take, Nat.add_sub_cancel_left]
    simp only [Option.map_some, htext]

/-- Nothing is no head. -/
theorem parse_nil (limit : Nat) : parse limit [] = .error .incomplete := by
  have hsize : size? [] = none := by decide
  rw [parse_eq, hsize]
  rfl

/-- The size of a head behind blank lines. -/
theorem size?_blank_append {rest : Bytes} (h : ¬ Bytes.crlf <+: rest) (k : Nat) :
    size? (Bytes.blank k ++ rest) = (Bytes.search headEnd rest).map (2 * k + ·) := by
  have hdrop : (Bytes.blank k ++ rest).drop (2 * k) = rest := by
    rw [← Bytes.length_blank k, List.drop_left]
  rw [size?, Bytes.blankLines_blank_append h, hdrop]

/-- The text of a head behind blank lines. -/
theorem text_blank_append {rest : Bytes} (h : ¬ Bytes.crlf <+: rest) (k m : Nat) :
    ((Bytes.blank k ++ rest).take (2 * k + m)).drop (Bytes.blank k ++ rest).blankLines =
      rest.take m := by
  rw [Bytes.blankLines_blank_append h, ← Bytes.length_blank, List.take_length_add_append,
    List.drop_left]

/-- A buffer with a head in it: the blank lines, and the head with what follows it. -/
theorem exists_blank_of_size? {buffer : Bytes} {n : Nat} (h : size? buffer = some n) :
    ∃ k rest m, buffer = Bytes.blank k ++ rest ∧ n = 2 * k + m ∧ ¬ Bytes.crlf <+: rest ∧
      Bytes.search headEnd rest = some m := by
  obtain ⟨k, hk, hbuffer, hrest⟩ := Bytes.exists_blank buffer
  obtain ⟨m, hm, rfl⟩ := Option.map_eq_some_iff.1 h
  exact ⟨k, _, m, hbuffer, by rw [hk], hrest, hm⟩

private theorem not_crlf_prefix_append {rest : Bytes} {m : Nat} (h : ¬ Bytes.crlf <+: rest)
    (hm : Bytes.search headEnd rest = some m) (more : Bytes) : ¬ Bytes.crlf <+: rest ++ more := by
  -- the ending is there, so that what is there is long enough to begin with CR LF by itself
  have hle := Bytes.search_le hm
  refine fun hp => h (List.prefix_of_prefix_length_le hp (List.prefix_append _ _) ?_)
  simp only [headEnd, Bytes.crlf, List.length_append, List.length_cons, List.length_nil] at hle ⊢
  omega

/-- The ending of a head is within the buffer. -/
theorem size?_le {buffer : Bytes} {n : Nat} (h : size? buffer = some n) :
    n + 4 ≤ buffer.length := by
  obtain ⟨k, rest, m, rfl, rfl, -, hm⟩ := exists_blank_of_size? h
  have hle := Bytes.search_le hm
  simp only [headEnd, Bytes.crlf, List.length_append, List.length_cons, List.length_nil,
    Bytes.length_blank] at hle ⊢
  omega

/-- The size of a head does not depend on what follows it. -/
theorem size?_append {buffer : Bytes} {n : Nat} (h : size? buffer = some n) (more : Bytes) :
    size? (buffer ++ more) = some n := by
  obtain ⟨k, rest, m, rfl, rfl, hrest, hm⟩ := exists_blank_of_size? h
  rw [List.append_assoc, size?_blank_append (not_crlf_prefix_append hrest hm more),
    Bytes.search_append hm]
  rfl

/-- The blank lines in front of a head do not depend on what follows it. -/
theorem blankLines_append {buffer : Bytes} {n : Nat} (h : size? buffer = some n) (more : Bytes) :
    (buffer ++ more).blankLines = buffer.blankLines := by
  obtain ⟨k, rest, m, rfl, -, hrest, hm⟩ := exists_blank_of_size? h
  rw [List.append_assoc, Bytes.blankLines_blank_append (not_crlf_prefix_append hrest hm more),
    Bytes.blankLines_blank_append hrest]

/-- A head that is complete only with the octets appended ends in them. -/
theorem length_lt_of_size?_append {buffer more : Bytes} {n : Nat} (h : size? buffer = none)
    (h' : size? (buffer ++ more) = some n) : buffer.length < n + 4 := by
  refine Nat.lt_of_not_le fun hle => ?_
  obtain ⟨k, rest, m, hsplit, rfl, hrest, hm⟩ := exists_blank_of_size? h'
  -- the head lies within the buffer, and so would be found there
  obtain ⟨as, hblank, -⟩ | ⟨front, rfl, rfl⟩ := List.append_eq_append_iff.1 hsplit
  · have := congrArg List.length hblank
    rw [Bytes.length_blank, List.length_append] at this
    omega
  · have hfront : ¬ Bytes.crlf <+: front := fun hp => hrest (hp.trans (List.prefix_append _ _))
    rw [size?_blank_append hfront, Option.map_eq_none_iff] at h
    have := Bytes.length_lt_of_search_append h hm
    simp only [headEnd, Bytes.crlf, List.length_append, List.length_cons, List.length_nil,
      Bytes.length_blank] at this hle
    omega

/-- Once the size of a head is known, appended octets change nothing. -/
theorem parse_append_of_size? {limit : Nat} {buffer : Bytes} {n : Nat} (h : size? buffer = some n)
    (more : Bytes) : parse limit (buffer ++ more) = parse limit buffer := by
  have hle := size?_le h
  have htake : (buffer ++ more).take n = buffer.take n :=
    List.take_append_of_le_length (by omega)
  rw [parse_eq, parse_eq, size?_append h, h]
  simp only [blankLines_append h, htake]

/-- A head that was read is read alike whatever follows it. -/
theorem parse_append_of_ok {limit n : Nat} {buffer : Bytes} {head : Head}
    (h : parse limit buffer = .ok (head, n)) (more : Bytes) :
    parse limit (buffer ++ more) = .ok (head, n) := by
  cases hsize : size? buffer with
  | none =>
    rw [parse_eq, hsize] at h
    cases h
  | some size => rw [parse_append_of_size? hsize, h]

end HttpEcho.Head
