import HttpEcho.Head.Stream
import HttpEcho.Proofs.Head.Extent

/-!
# Heads that arrive in parts

What the verdict on the first head of a stream owes to the way in which the stream arrives.

The size that the limit bounds leaves the ending of a head out, but as long as the ending is not
complete the whole buffer counts. The two measures differ by the octets of the ending that are
there, up to three. So a verdict is kept when more octets arrive, with one exception: a buffer that
stops inside the ending of a head of admissible size, and is longer than the limit by what it holds
of the ending, is refused as too large (`StopsInEnding`). `Head.parse_in_parts` states that this is
the only exception, and from it what every cut of a stream leads to.
-/

namespace HttpEcho

/-! ### Errors of complete heads -/

theorem RequestLine.parse_error_ne {line : Bytes} {e : ProtocolError}
    (h : RequestLine.parse line = .error e) : e ≠ .incomplete ∧ e ≠ .headersTooLarge := by
  have hinvalid : ∀ text, ProtocolError.invalidRequestLine text ≠ .incomplete ∧
      ProtocolError.invalidRequestLine text ≠ .headersTooLarge := by
    simp
  unfold RequestLine.parse at h
  split at h
  · exact Except.error.inj h ▸ hinvalid _
  split at h
  · split at h
    · exact Except.error.inj h ▸ hinvalid _
    rename_i chars _ _ _ version _ _
    unfold Version.parse at h
    split at h
    · cases h
    split at h
    · cases h
    split at h
    · exact Except.error.inj h ▸ by simp
    · exact Except.error.inj h ▸ hinvalid _
  · exact Except.error.inj h ▸ hinvalid _

theorem Field.parse_error_ne {line : Bytes} {e : ProtocolError}
    (h : Field.parse line = .error e) : e ≠ .incomplete ∧ e ≠ .headersTooLarge := by
  unfold Field.parse at h
  dsimp only at h
  repeat' split at h
  all_goals cases h
  all_goals simp

/-- Fields that are wrong are neither incomplete nor too large. -/
theorem Fields.parse_error_ne {room : Nat} {lines : List Bytes} {e : ProtocolError}
    (h : Fields.parse room lines = .error e) : e ≠ .incomplete ∧ e ≠ .headersTooLarge := by
  induction lines generalizing room with
  | nil => simp [Fields.parse] at h
  | cons line lines ih =>
    cases room with
    | zero =>
      rw [Fields.parse] at h
      exact Except.error.inj h ▸ by simp
    | succ room =>
      rw [Fields.parse] at h
      split at h
      · rename_i e' hfield
        exact Except.error.inj h ▸ Field.parse_error_ne hfield
      · cases hrest : Fields.parse room lines with
        | error e' =>
          rw [hrest] at h
          obtain rfl : e' = e := Except.error.inj h
          exact ih hrest
        | ok _ =>
          rw [hrest] at h
          cases h

namespace Head

/-- What is wrong with a complete head is neither that it is incomplete nor its size. -/
theorem ofLines_error_ne {lines : List Bytes} {e : ProtocolError} (h : ofLines lines = .error e) :
    e ≠ .incomplete ∧ e ≠ .headersTooLarge := by
  unfold ofLines at h
  split at h
  · exact Except.error.inj h ▸ by simp
  split at h
  · rename_i e' hline
    exact Except.error.inj h ▸ RequestLine.parse_error_ne hline
  · rename_i rest _ _ _
    cases hfields : Fields.parse maxFields rest with
    | error e' =>
      rw [hfields] at h
      exact Except.error.inj h ▸ Fields.parse_error_ne hfields
    | ok _ =>
      rw [hfields] at h
      cases h

/-- A head whose size is known is refused as too large if its size is, and is never incomplete. -/
theorem parse_of_size? {buffer : Bytes} {n : Nat} (limit : Nat) (h : size? buffer = some n) :
    parse limit buffer ≠ .error .incomplete ∧
      (parse limit buffer = .error .headersTooLarge ↔ limit < n) := by
  rw [parse_eq, h]
  dsimp only
  split
  case isTrue hlt => simp [hlt]
  case isFalse hle =>
    cases hlines : ofLines (Bytes.lines ((buffer.take n).drop buffer.blankLines)) with
    | ok _ => simp [Except.map, hle]
    | error e =>
      have := ofLines_error_ne hlines
      simp [Except.map, this.1, this.2, hle]

/-- As long as the size is not known, all that counts is how much has arrived. -/
theorem parse_of_size?_eq_none {buffer : Bytes} (limit : Nat) (h : size? buffer = none) :
    parse limit buffer =
      .error (if limit < buffer.length then .headersTooLarge else .incomplete) := by
  rw [parse_eq, h]

/-! ### The verdict on the first head -/

/-- Whether a buffer of `arrived` octets stops inside the ending of a head of the given size, and is
longer than the limit although the head is not. -/
def StopsInEnding (limit size arrived : Nat) : Prop :=
  size ≤ limit ∧ limit < arrived ∧ arrived < size + 4

instance (limit size arrived : Nat) : Decidable (StopsInEnding limit size arrived) :=
  inferInstanceAs (Decidable (_ ∧ _))

/-- **One verdict and more octets.** A buffer that has a verdict keeps it, whatever is appended,
unless it stops inside the ending of a head of admissible size. -/
theorem parse_append_eq_iff {limit : Nat} {buffer : Bytes}
    (h : parse limit buffer ≠ .error .incomplete) (more : Bytes) :
    parse limit (buffer ++ more) = parse limit buffer ↔
      ¬ ∃ n, size? (buffer ++ more) = some n ∧ StopsInEnding limit n buffer.length := by
  cases hsize : size? buffer with
  | some m =>
    rw [parse_append_of_size? hsize, size?_append hsize]
    have := size?_le hsize
    simp only [Option.some.injEq, exists_eq_left', true_iff]
    rintro ⟨-, -, hlt⟩
    omega
  | none =>
    have hparse := parse_of_size?_eq_none limit hsize
    -- without a size there is a verdict only on a buffer that is too long
    have hlimit : limit < buffer.length := by
      refine Decidable.byContradiction fun hle => h ?_
      rw [hparse, if_neg hle]
    rw [hparse, if_pos hlimit]
    cases hmore : size? (buffer ++ more) with
    | none =>
      rw [parse_of_size?_eq_none limit hmore, if_pos (by rw [List.length_append]; omega)]
      simp
    | some n =>
      have hlt := length_lt_of_size?_append hsize hmore
      rw [(parse_of_size? limit hmore).2]
      simp only [Option.some.injEq, exists_eq_left', StopsInEnding]
      omega

/-- The verdict on the first head of a buffer, if there is one yet. -/
def verdict? (limit : Nat) (buffer : Bytes) : Option (Except ProtocolError (Head × Nat)) :=
  match parse limit buffer with
  | .error .incomplete => none
  | verdict => some verdict

end Head

/-- The verdict on the first head that was looked at. -/
def HeadsRead.verdict? (read : HeadsRead) : Option (Except ProtocolError (Head × Nat)) :=
  match read.heads with
  | first :: _ => some (.ok first)
  | [] => if read.error = .incomplete then none else some (.error read.error)

namespace Head

/-- The verdict on the first head of a stream that arrives in parts. -/
def firstVerdict? (limit : Nat) (parts : List Bytes) :
    Option (Except ProtocolError (Head × Nat)) :=
  (feed limit [] parts).findSome? HeadsRead.verdict?

private theorem verdict?_readAll (limit : Nat) (buffer : Bytes) :
    (readAll limit buffer).verdict? = verdict? limit buffer := by
  rw [readAll, verdict?]
  split
  case h_1 error herror =>
    rw [herror]
    cases error <;> simp [HeadsRead.verdict?]
  case h_2 head size hok => simp only [hok, HeadsRead.verdict?]

private theorem rest_readAll {limit : Nat} {buffer : Bytes} (h : verdict? limit buffer = none) :
    (readAll limit buffer).rest = buffer := by
  rw [readAll]
  split
  case h_1 => rfl
  case h_2 head size hok => simp [verdict?, hok] at h

/-- **One more part**: as long as there is no verdict, the parts add up. -/
private theorem findSome?_feed_cons (limit : Nat) (buffer part : Bytes) (parts : List Bytes) :
    (feed limit buffer (part :: parts)).findSome? HeadsRead.verdict? =
      (verdict? limit (buffer ++ part)).or
        ((feed limit (buffer ++ part) parts).findSome? HeadsRead.verdict?) := by
  rw [feed, List.findSome?_cons, verdict?_readAll]
  cases hv : verdict? limit (buffer ++ part) with
  | some v => rfl
  | none => rw [rest_readAll hv]; rfl

/-- The verdict on a head is there once its end is. -/
private theorem verdict?_of_size? {limit n : Nat} {buffer : Bytes} (h : size? buffer = some n) :
    verdict? limit buffer = some (parse limit buffer) := by
  have := (parse_of_size? limit h).1
  unfold verdict?
  split
  · contradiction
  · rfl

private theorem verdict?_of_size?_eq_none {limit : Nat} {buffer : Bytes}
    (h : size? buffer = none) : verdict? limit buffer =
      if limit < buffer.length then some (.error .headersTooLarge) else none := by
  rw [verdict?, parse_of_size?_eq_none limit h]
  split <;> simp_all

/-- How many octets have arrived with each of the parts, on top of `before`. -/
def arrivals (before : Nat) : List Bytes → List Nat
  | [] => []
  | part :: parts => (before + part.length) :: arrivals (before + part.length) parts

/-- What has arrived only grows. -/
theorem le_of_mem_arrivals {before a : Nat} {parts : List Bytes} (h : a ∈ arrivals before parts) :
    before ≤ a := by
  induction parts generalizing before with
  | nil => cases h
  | cons part parts ih =>
    rcases List.mem_cons.1 h with rfl | h
    · exact Nat.le_add_right _ _
    · exact Nat.le_trans (Nat.le_add_right _ _) (ih h)

/-- What a stream leads to that arrives in parts after a buffer without a verdict. -/
private theorem findSome?_feed (limit : Nat) (buffer : Bytes) (parts : List Bytes)
    (hsize : size? buffer = none) (hle : buffer.length ≤ limit) :
    (feed limit buffer parts).findSome? HeadsRead.verdict? =
      match size? (buffer ++ parts.flatten) with
      | none =>
        if limit < (buffer ++ parts.flatten).length then some (.error .headersTooLarge) else none
      | some n =>
        if ∃ a ∈ arrivals buffer.length parts, StopsInEnding limit n a
        then some (.error .headersTooLarge)
        else some (parse limit (buffer ++ parts.flatten)) := by
  induction parts generalizing buffer with
  | nil =>
    rw [List.flatten_nil, List.append_nil, hsize, feed]
    dsimp only
    rw [if_neg (by omega)]
    rfl
  | cons part parts ih =>
    rw [findSome?_feed_cons, List.flatten_cons, ← List.append_assoc, arrivals,
      ← List.length_append]
    cases hpart : size? (buffer ++ part) with
    | some n =>
      -- the head is complete, and no arrival has stopped inside its ending
      have hn := size?_le hpart
      rw [verdict?_of_size? hpart, size?_append hpart, parse_append_of_size? hpart]
      dsimp only
      rw [if_neg, Option.some_or]
      rintro ⟨a, ha, hstops⟩
      have hge : (buffer ++ part).length ≤ a := by
        rcases List.mem_cons.1 ha with rfl | ha
        · exact Nat.le_refl _
        · exact le_of_mem_arrivals ha
      have := hstops.2.2
      omega
    | none =>
      rw [verdict?_of_size?_eq_none hpart]
      by_cases hlimit : limit < (buffer ++ part).length
      · rw [if_pos hlimit, Option.some_or]
        split
        case h_1 =>
          rw [if_pos]
          rw [List.length_append]
          omega
        case h_2 n hn =>
          -- either the head is too long, or this arrival stops inside its ending
          have hlt := length_lt_of_size?_append hpart hn
          by_cases hsize : n ≤ limit
          · rw [if_pos ⟨_, List.mem_cons_self, hsize, hlimit, hlt⟩]
          · rw [(parse_of_size? limit hn).2.2 (by omega), ite_self]
      · rw [if_neg hlimit, Option.none_or, ih _ hpart (by omega)]
        -- an arrival within the limit does not stop inside an ending
        have hstep : ∀ n, (∃ a ∈ (buffer ++ part).length :: arrivals (buffer ++ part).length parts,
            StopsInEnding limit n a) ↔
              ∃ a ∈ arrivals (buffer ++ part).length parts, StopsInEnding limit n a := by
          intro n
          simp only [List.mem_cons, exists_eq_or_imp, StopsInEnding, hlimit, false_and, and_false,
            false_or]
        simp only [hstep]

/-- **The first verdict** on a stream that arrives in parts. -/
theorem firstVerdict?_eq (limit : Nat) (parts : List Bytes) :
    firstVerdict? limit parts =
      match size? parts.flatten with
      | none => if limit < parts.flatten.length then some (.error .headersTooLarge) else none
      | some n =>
        if ∃ a ∈ arrivals 0 parts, StopsInEnding limit n a then some (.error .headersTooLarge)
        else some (parse limit parts.flatten) :=
  findSome?_feed limit [] parts rfl (Nat.zero_le _)

/-- Octets that arrive one by one arrive at every number. -/
private theorem mem_arrivals_singletons {before a : Nat} {stream : Bytes} :
    a ∈ arrivals before (stream.map fun b => [b]) ↔ before < a ∧ a ≤ before + stream.length := by
  induction stream generalizing before with
  | nil =>
    simp only [List.map_nil, arrivals, List.not_mem_nil, List.length_nil, false_iff]
    omega
  | cons b stream ih =>
    simp only [List.map_cons, arrivals, List.mem_cons, ih, List.length_cons, List.length_nil]
    omega

/-- **Heads in parts.** What a buffer has been judged to hold stays so when octets are appended,
unless the buffer stops inside the ending of a head and is longer than the limit only by what it
holds of that ending. So two cuts of a stream lead to the same first verdict exactly if both or
neither of them have an arrival of this kind; a head is refused as too large exactly if it is
longer than the limit or its cut has one; and that is the case from the limit on when it arrives at
once, and from three octets less on when it arrives octet by octet. -/
theorem parse_in_parts (limit : Nat) :
    (∀ buffer more : Bytes, parse limit buffer ≠ .error .incomplete →
      (parse limit (buffer ++ more) = parse limit buffer ↔
        ¬ ∃ n, size? (buffer ++ more) = some n ∧ StopsInEnding limit n buffer.length)) ∧
    (∀ parts parts' : List Bytes, parts.flatten = parts'.flatten →
      (firstVerdict? limit parts = firstVerdict? limit parts' ↔
        ∀ n, size? parts.flatten = some n →
          ((∃ a ∈ arrivals 0 parts, StopsInEnding limit n a) ↔
            ∃ a ∈ arrivals 0 parts', StopsInEnding limit n a))) ∧
    (∀ (parts : List Bytes) (n : Nat), size? parts.flatten = some n →
      (firstVerdict? limit parts = some (.error .headersTooLarge) ↔
        limit < n ∨ ∃ a ∈ arrivals 0 parts, StopsInEnding limit n a)) ∧
    (∀ (stream : Bytes) (n : Nat), size? stream = some n →
      (firstVerdict? limit [stream] = some (.error .headersTooLarge) ↔ limit < n) ∧
      (firstVerdict? limit (stream.map fun b => [b]) = some (.error .headersTooLarge) ↔
        limit < n + 3)) := by
  have htooLarge : ∀ (parts : List Bytes) (n : Nat), size? parts.flatten = some n →
      (firstVerdict? limit parts = some (.error .headersTooLarge) ↔
        limit < n ∨ ∃ a ∈ arrivals 0 parts, StopsInEnding limit n a) := by
    intro parts n hn
    rw [firstVerdict?_eq, hn]
    dsimp only
    split
    case isTrue h => simp [h]
    case isFalse h => simp [h, (parse_of_size? limit hn).2]
  refine ⟨fun buffer more h => parse_append_eq_iff h more, ?_, htooLarge, ?_⟩
  · intro parts parts' hflatten
    rw [firstVerdict?_eq, firstVerdict?_eq, ← hflatten]
    cases hn : size? parts.flatten with
    | none => simp
    | some n =>
      simp only [Option.some.injEq, forall_eq']
      -- an arrival stops inside an ending only if the head itself is within the limit
      have hne : (∃ a, StopsInEnding limit n a) →
          parse limit parts.flatten ≠ .error .headersTooLarge := by
        rintro ⟨a, hle, -⟩ h
        have := (parse_of_size? limit hn).2.1 h
        omega
      by_cases h : ∃ a ∈ arrivals 0 parts, StopsInEnding limit n a <;>
        by_cases h' : ∃ a ∈ arrivals 0 parts', StopsInEnding limit n a
      · simp [h, h']
      · have := hne (h.imp fun _ => And.right)
        simp [h, h', this.symm]
      · have := hne (h'.imp fun _ => And.right)
        simp [h, h', this]
      · simp [h, h']
  · intro stream n hn
    have hle := size?_le hn
    constructor
    · rw [htooLarge [stream] n (by rwa [List.flatten_singleton])]
      simp only [arrivals, List.mem_singleton, exists_eq_left, StopsInEnding]
      omega
    · have hflatten : (stream.map fun b => [b]).flatten = stream := by
        rw [← List.flatMap_def, List.flatMap_singleton']
      rw [htooLarge _ n (by rwa [hflatten])]
      simp only [mem_arrivals_singletons, StopsInEnding]
      constructor
      · rintro (h | ⟨a, ha, hs⟩) <;> omega
      · intro h
        by_cases hlt : limit < n
        · exact .inl hlt
        · -- the arrival that lacks one octet of the ending is refused already
          exact .inr ⟨n + 3, by omega, by omega⟩

/-- A head of fourteen octets, which is the limit: refused when the buffer stops before the last
octet of the ending, and read when that octet is there. -/
theorem parse_stops_in_ending :
    parse 14 (Utf8.encode "GET / HTTP/1.1\r\n\r") = .error .headersTooLarge ∧
      parse 14 (Utf8.encode "GET / HTTP/1.1\r\n\r" ++ [Bytes.lf]) =
        .ok ({ method := .get, target := "/", version := .http11, fields := [] }, 18) :=
  ⟨rfl, rfl⟩

end Head

end HttpEcho
