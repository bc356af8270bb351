import HttpEcho.Bytes

/-!
# Laws of octet strings

What search, division into lines and skipping of blank lines mean for the octets themselves.

`search_eq_some_iff` says that a search finds the first occurrence of its pattern. From it come the
two facts that everything about growing buffers rests on: what was found stays found when octets
are appended (`search_append`), and an occurrence that only appears then ends in the new octets
(`length_lt_of_search_append`).

Lines come off a text one after the other, each up to the first CR LF of what is left
(`lines_eq_cutLine?`), and `cut_induction` is the induction along them. `intercalate_lines` and
`noCrlf_of_mem_lines` make the lines of a text a division at all of its CR LF pairs, and
`exists_blank` does the same for the blank lines in front.
-/

namespace HttpEcho.Bytes

/-! ### Search -/

private theorem searchFrom_add (pattern : Bytes) (i j : Nat) (bytes : Bytes) :
    searchFrom pattern (i + j) bytes = (searchFrom pattern j bytes).map (i + ·) := by
  induction bytes generalizing j with
  | nil => by_cases h : pattern.isEmpty <;> simp [searchFrom, h]
  | cons b bytes ih =>
    rw [searchFrom, searchFrom, Nat.add_assoc, ih]
    split <;> rfl

/-- A search looks at the front, and else at what follows the first octet. -/
theorem search_cons (pattern : Bytes) (b : UInt8) (bytes : Bytes) :
    search pattern (b :: bytes) =
      if pattern <+: b :: bytes then some 0 else (search pattern bytes).map (1 + ·) := by
  rw [search, searchFrom]
  by_cases h : pattern <+: b :: bytes
  · rw [if_pos h, if_pos (List.isPrefixOf_iff_prefix.2 h)]
  · rw [if_neg h, if_neg (mt List.isPrefixOf_iff_prefix.1 h), Nat.add_comm, searchFrom_add]
    rfl

/-- **A search finds the first occurrence.** -/
theorem search_eq_some_iff {pattern bytes : Bytes} {n : Nat} :
    search pattern bytes = some n ↔
      n ≤ bytes.length ∧ pattern <+: bytes.drop n ∧ ∀ i < n, ¬ pattern <+: bytes.drop i := by
  induction bytes generalizing n with
  | nil =>
    cases pattern with
    | nil => cases n <;> simp [search, searchFrom]
    | cons p pattern => simp [search, searchFrom]
  | cons b bytes ih =>
    rw [search_cons]
    by_cases h : pattern <+: b :: bytes
    · rw [if_pos h]
      cases n with
      | zero => simpa using h
      | succ n =>
        constructor
        · simp
        · rintro ⟨-, -, hfirst⟩
          exact absurd h (hfirst 0 (by omega))
    · rw [if_neg h]
      cases n with
      | zero =>
        simp only [Option.map_eq_some_iff, List.drop_zero, h, false_and, and_false, iff_false]
        rintro ⟨m, -, hm⟩
        omega
      | succ n =>
        have hmap : (search pattern bytes).map (1 + ·) = some (n + 1) ↔
            search pattern bytes = some n := by
          rw [Option.map_eq_some_iff]
          constructor
          · rintro ⟨m, hm, hn⟩
            obtain rfl : m = n := by omega
            exact hm
          · exact fun hn => ⟨n, hn, by omega⟩
        rw [hmap, ih]
        simp only [List.length_cons, Nat.add_le_add_iff_right, List.drop_succ_cons]
        refine and_congr_right fun _ => and_congr_right fun _ => ⟨fun hfirst i hi => ?_, ?_⟩
        · cases i with
          | zero => exact h
          | succ i => exact hfirst i (by omega)
        · intro hfirst i hi
          exact hfirst (i + 1) (by omega)

/-- A pattern that is found divides the octets. -/
theorem eq_append_of_search {pattern bytes : Bytes} {n : Nat} (h : search pattern bytes = some n) :
    bytes = bytes.take n ++ (pattern ++ bytes.drop (n + pattern.length)) := by
  obtain ⟨hle, ⟨rest, hrest⟩, -⟩ := search_eq_some_iff.1 h
  have hdrop : bytes.drop (n + pattern.length) = rest := by
    rw [← List.drop_drop, ← hrest, List.drop_left]
  rw [hdrop, hrest, List.take_append_drop]

private theorem prefix_drop_append {pattern bytes : Bytes} {i : Nat}
    (hi : i + pattern.length ≤ bytes.length) (rest : Bytes) :
    pattern <+: (bytes ++ rest).drop i ↔ pattern <+: bytes.drop i := by
  rw [List.drop_append_of_le_length (by omega), List.prefix_iff_eq_take, List.prefix_iff_eq_take,
    List.take_append_of_le_length (by rw [List.length_drop]; omega)]

/-- What was found stays found when octets are appended. -/
theorem search_append {pattern bytes : Bytes} {n : Nat} (h : search pattern bytes = some n)
    (rest : Bytes) : search pattern (bytes ++ rest) = some n := by
  have hle := search_le h
  obtain ⟨-, hp, hfirst⟩ := search_eq_some_iff.1 h
  refine search_eq_some_iff.2 ⟨by rw [List.length_append]; omega, ?_, fun i hi => ?_⟩
  · exact (prefix_drop_append hle rest).2 hp
  · exact fun hpi => hfirst i hi ((prefix_drop_append (by omega) rest).1 hpi)

/-- What is found only after octets were appended ends in these octets. -/
theorem length_lt_of_search_append {pattern bytes rest : Bytes} {n : Nat}
    (h : search pattern bytes = none) (h' : search pattern (bytes ++ rest) = some n) :
    bytes.length < n + pattern.length := by
  refine Nat.lt_of_not_le fun hle => ?_
  obtain ⟨-, hp, hfirst⟩ := search_eq_some_iff.1 h'
  have hn : search pattern bytes = some n := by
    refine search_eq_some_iff.2 ⟨by omega, (prefix_drop_append hle rest).1 hp, fun i hi hpi => ?_⟩
    exact hfirst i hi ((prefix_drop_append (by omega) rest).2 hpi)
  rw [h] at hn
  cases hn

/-- A search fails exactly if the pattern stands nowhere. -/
theorem search_eq_none_iff {pattern bytes : Bytes} :
    search pattern bytes = none ↔ ¬ pattern <:+: bytes := by
  induction bytes with
  | nil => cases pattern <;> simp [search, searchFrom]
  | cons b bytes ih =>
    rw [search_cons, List.infix_cons_iff, not_or, ← ih]
    by_cases h : pattern <+: b :: bytes
    · simp [h]
    · simp [h]

/-- Octets that stop before the first occurrence ends hold none. -/
theorem not_infix_take_of_search {pattern bytes : Bytes} {n m : Nat}
    (h : search pattern bytes = some n) (hm : m < n + pattern.length) :
    ¬ pattern <:+: bytes.take m := by
  rw [← search_eq_none_iff]
  refine Option.eq_none_iff_forall_ne_some.2 fun i hi => ?_
  have hle := search_le hi
  have hwhole := search_append hi (bytes.drop m)
  rw [List.take_append_drop, h, Option.some.injEq] at hwhole
  rw [List.length_take] at hle
  omega

/-- Octets other than the first one of the pattern are passed over. -/
theorem search_append_of_notMem {p : UInt8} {pattern skipped : Bytes} (h : p ∉ skipped)
    (bytes : Bytes) :
    search (p :: pattern) (skipped ++ bytes) =
      (search (p :: pattern) bytes).map (skipped.length + ·) := by
  induction skipped with
  | nil => simp
  | cons b skipped ih =>
    simp only [List.mem_cons, not_or] at h
    have hne : ¬ p :: pattern <+: b :: (skipped ++ bytes) :=
      fun hp => h.1 (List.cons_prefix_cons.1 hp).1
    rw [List.cons_append, search_cons, if_neg hne, ih h.2, Option.map_map]
    congr 1
    funext n
    simp only [Function.comp, List.length_cons]
    omega

/-- A pattern at the front is found there. -/
theorem search_self_append (pattern bytes : Bytes) : search pattern (pattern ++ bytes) = some 0 :=
  search_eq_some_iff.2 ⟨Nat.zero_le _, List.prefix_append _ _, fun i hi => absurd hi (by omega)⟩

/-- The first place of a single octet divides the octets there. -/
theorem search_singleton_eq_some_iff {b : UInt8} {bytes : Bytes} {n : Nat} :
    search [b] bytes = some n ↔
      ∃ before after, bytes = before ++ b :: after ∧ b ∉ before ∧ before.length = n := by
  have hfound : ∀ before after, b ∉ before →
      search [b] (before ++ b :: after) = some before.length := by
    intro before after h
    have hhere : search [b] (b :: after) = some 0 := search_self_append [b] after
    rw [search_append_of_notMem h, hhere]
    rfl
  constructor
  · intro h
    by_cases hmem : b ∈ bytes
    · obtain ⟨before, after, rfl, hbefore⟩ := List.eq_append_cons_of_mem hmem
      rw [hfound before after hbefore, Option.some.injEq] at h
      exact ⟨before, after, rfl, hbefore, h⟩
    · rw [← List.append_nil bytes, search_append_of_notMem hmem] at h
      cases h
  · rintro ⟨before, after, rfl, hbefore, rfl⟩
    exact hfound before after hbefore

/-! ### Lines -/

/-- Behind a line and its end is the rest. -/
theorem drop_line_self (line rest : Bytes) :
    (line ++ (crlf ++ rest)).drop (line.length + 2) = rest := by
  rw [← List.drop_drop, List.drop_left]
  rfl

/-- The first CR LF after a line without one is its line end. -/
theorem findCrlf?_append_crlf {line : Bytes} (h : ¬ crlf <:+: line) (rest : Bytes) :
    findCrlf? (line ++ (crlf ++ rest)) = some line.length := by
  induction line with
  | nil => exact search_self_append crlf rest
  | cons b line ih =>
    -- a CR LF at the front would be one of the line, or have its LF from a CR
    have hfirst : ¬ crlf <+: b :: (line ++ (crlf ++ rest)) := by
      intro hp
      obtain ⟨rfl, hlf⟩ := List.cons_prefix_cons.1 hp
      cases line with
      | nil => exact absurd (List.cons_prefix_cons.1 hlf).1 (by decide)
      | cons c line =>
        obtain ⟨rfl, -⟩ := List.cons_prefix_cons.1 hlf
        exact h ⟨[], line, rfl⟩
    rw [findCrlf?, List.cons_append, search_cons, if_neg hfirst]
    have hrest := ih fun hcrlf => h (List.infix_cons hcrlf)
    rw [findCrlf?] at hrest
    rw [hrest, Option.map_some, List.length_cons, Nat.add_comm]

/-- The line end is found as soon as it is there, however far the buffer reaches. -/
theorem findCrlf?_of_append_eq {line buffer stream rest : Bytes} (h : ¬ crlf <:+: line)
    (heq : buffer ++ stream = line ++ (crlf ++ rest)) :
    findCrlf? buffer = if line.length + 2 ≤ buffer.length then some line.length else none := by
  have hfound : search crlf (buffer ++ stream) = some line.length :=
    heq ▸ findCrlf?_append_crlf h rest
  cases hbuffer : findCrlf? buffer with
  | none =>
    have hlt : buffer.length < line.length + 2 := length_lt_of_search_append hbuffer hfound
    rw [if_neg (by omega)]
  | some n =>
    obtain rfl : n = line.length :=
      Option.some.inj ((search_append hbuffer stream).symm.trans hfound)
    rw [if_pos (findCrlf?_le hbuffer)]

theorem lines_ne_nil (bytes : Bytes) : lines bytes ≠ [] := by
  cases bytes with
  | nil => simp [lines]
  | cons b bytes =>
    change consLine b (lines bytes) ≠ []
    unfold consLine
    split
    · simp
    · simp
    · split <;> simp

/-- Lines with CR LF between them: each line but the first one comes after a CR LF. -/
theorem intercalate_crlf_cons (line : Bytes) (others : List Bytes) :
    crlf.intercalate (line :: others) = line ++ others.flatMap (crlf ++ ·) := by
  induction others generalizing line with
  | nil => simp
  | cons next others ih =>
    rw [List.intercalate_cons_cons, ih, List.flatMap_cons]
    simp only [List.append_assoc]

/-- A blank line at the front is an empty line. -/
theorem lines_crlf_append (rest : Bytes) : lines (crlf ++ rest) = [] :: lines rest := by
  obtain ⟨first, others, hlines⟩ := List.exists_cons_of_ne_nil (lines_ne_nil rest)
  have hlf : consLine lf (first :: others) = (lf :: first) :: others := by
    cases first with
    | nil => rfl
    | cons c first =>
      have hne : ¬ (lf = cr ∧ c = lf) := fun h => absurd h.1 (by decide)
      rw [consLine, if_neg hne]
  change consLine cr (consLine lf (lines rest)) = [] :: lines rest
  rw [hlines, hlf]
  rfl

/-- A line and its line end come off the front. -/
theorem lines_append_crlf {line : Bytes} (h : ¬ crlf <:+: line) (rest : Bytes) :
    lines (line ++ (crlf ++ rest)) = line :: lines rest := by
  induction line with
  | nil => exact lines_crlf_append rest
  | cons b line ih =>
    change consLine b (lines (line ++ (crlf ++ rest))) = _
    rw [ih fun hcrlf => h (List.infix_cons hcrlf)]
    cases line with
    | nil => rfl
    | cons c line =>
      -- the first two octets are not CR LF, so that they stay in one line
      refine if_neg ?_
      rintro ⟨rfl, rfl⟩
      exact h ⟨[], line, rfl⟩

/-- A text without a line end is one line. -/
theorem lines_of_noCrlf {line : Bytes} (h : ¬ crlf <:+: line) : lines line = [line] := by
  induction line with
  | nil => rfl
  | cons b line ih =>
    change consLine b (lines line) = _
    rw [ih fun hcrlf => h (List.infix_cons hcrlf)]
    cases line with
    | nil => rfl
    | cons c line =>
      refine if_neg ?_
      rintro ⟨rfl, rfl⟩
      exact h ⟨[], line, rfl⟩

/-- Lines are cut off a text one after the other, until what is left has no line end. -/
@[elab_as_elim]
theorem cut_induction {motive : Bytes → Prop} (last : ∀ line, ¬ crlf <:+: line → motive line)
    (cut : ∀ line rest, ¬ crlf <:+: line → motive rest → motive (line ++ (crlf ++ rest)))
    (bytes : Bytes) : motive bytes := by
  induction hn : bytes.length using Nat.strongRecOn generalizing bytes with
  | ind n ih =>
    cases hfind : search crlf bytes with
    | none => exact last bytes (search_eq_none_iff.1 hfind)
    | some stop =>
      have hle := search_le hfind
      have hline : ¬ crlf <:+: bytes.take stop :=
        not_infix_take_of_search hfind (Nat.lt_add_of_pos_right (by decide))
      rw [eq_append_of_search hfind]
      refine cut _ _ hline (ih _ ?_ _ rfl)
      rw [List.length_drop, hn]
      simp only [crlf, List.length_cons, List.length_nil] at hle ⊢
      omega

/-- The lines of a text are its first line, if one has ended, and the lines of what follows it. -/
theorem lines_eq_cutLine? (bytes : Bytes) :
    lines bytes =
      match cutLine? bytes with
      | none => [bytes]
      | some (line, rest) => line :: lines rest := by
  induction bytes using cut_induction with
  | last line hline =>
    have hfind : findCrlf? line = none := search_eq_none_iff.2 hline
    rw [cutLine?, hfind, lines_of_noCrlf hline]
    rfl
  | cut line rest hline =>
    rw [cutLine?, findCrlf?_append_crlf hline, lines_append_crlf hline, Option.map_some,
      List.take_left, drop_line_self]

/-- **The lines of a text make up the text**, with CR LF between them. -/
theorem intercalate_lines (bytes : Bytes) : crlf.intercalate (lines bytes) = bytes := by
  induction bytes using cut_induction with
  | last line hline => rw [lines_of_noCrlf hline, List.intercalate_singleton]
  | cut line rest hline ih =>
    rw [lines_append_crlf hline, List.intercalate_cons_of_ne_nil (lines_ne_nil rest), ih,
      List.append_assoc]

/-- No line has a line end in it. -/
theorem noCrlf_of_mem_lines {bytes line : Bytes} (h : line ∈ lines bytes) : ¬ crlf <:+: line := by
  induction bytes using cut_induction with
  | last last hlast =>
    rw [lines_of_noCrlf hlast] at h
    exact List.mem_singleton.1 h ▸ hlast
  | cut first rest hfirst ih =>
    rw [lines_append_crlf hfirst] at h
    rcases List.mem_cons.1 h with rfl | h
    · exact hfirst
    · exact ih h

/-- A line end divides the lines, whatever stands before it. -/
theorem lines_append_crlf_append (front rest : Bytes) :
    lines (front ++ (crlf ++ rest)) = lines front ++ lines rest := by
  induction front using cut_induction with
  | last line hline => rw [lines_append_crlf hline, lines_of_noCrlf hline, List.singleton_append]
  | cut line front hline ih =>
    rw [List.append_assoc, List.append_assoc, lines_append_crlf hline, ih, lines_append_crlf hline,
      List.cons_append]

/-- A line end comes off octets in one way only. -/
theorem append_crlf_inj {a b x y : Bytes} (ha : ¬ crlf <:+: a) (hb : ¬ crlf <:+: b)
    (h : a ++ (crlf ++ x) = b ++ (crlf ++ y)) : a = b ∧ x = y := by
  have hlines := congrArg lines h
  rw [lines_append_crlf ha, lines_append_crlf hb, List.cons.injEq] at hlines
  refine ⟨hlines.1, ?_⟩
  rw [← intercalate_lines x, hlines.2, intercalate_lines]

/-! ### Blank lines -/

/-- A number of blank lines. -/
def blank (k : Nat) : Bytes := (List.replicate k crlf).flatten

theorem blank_succ (k : Nat) : blank (k + 1) = crlf ++ blank k := by
  rw [blank, List.replicate_succ, List.flatten_cons, blank]

@[simp]
theorem length_blank (k : Nat) : (blank k).length = 2 * k := by
  induction k with
  | zero => rfl
  | succ k ih =>
    rw [blank_succ, List.length_append, ih]
    simp only [crlf, List.length_cons, List.length_nil]
    omega

private theorem blankLinesFrom_eq_add (n : Nat) (bytes : Bytes) :
    blankLinesFrom n bytes = n + blankLines bytes := by
  have hadd : ∀ m, blankLinesFrom (n + m) bytes = n + blankLinesFrom m bytes := by
    intro m
    fun_induction blankLinesFrom m bytes with
    | case1 m a b rest h ih => rw [blankLinesFrom, if_pos h, Nat.add_assoc, ih]
    | case2 m a b rest h => rw [blankLinesFrom, if_neg h]
    | case3 m bytes h =>
      rw [blankLinesFrom]
      exact h
  exact hadd 0

theorem blankLines_crlf_append (rest : Bytes) :
    blankLines (crlf ++ rest) = 2 + blankLines rest := by
  change blankLinesFrom 0 (cr :: lf :: rest) = _
  rw [blankLinesFrom, if_pos ⟨rfl, rfl⟩, blankLinesFrom_eq_add]

theorem blankLines_eq_zero {bytes : Bytes} (h : ¬ crlf <+: bytes) : blankLines bytes = 0 := by
  rw [blankLines]
  rcases bytes with _ | ⟨a, _ | ⟨b, rest⟩⟩
  · rfl
  · rfl
  · refine if_neg ?_
    rintro ⟨rfl, rfl⟩
    exact h ⟨rest, rfl⟩

/-- Blank lines in front are counted up to where something else begins. -/
theorem blankLines_blank_append {rest : Bytes} (h : ¬ crlf <+: rest) (k : Nat) :
    blankLines (blank k ++ rest) = 2 * k := by
  induction k with
  | zero => exact blankLines_eq_zero h
  | succ k ih =>
    rw [blank_succ, List.append_assoc, blankLines_crlf_append, ih]
    omega

/-- The blank lines in front are pairs of CR and LF, and none is left after them. -/
theorem exists_blank (bytes : Bytes) : ∃ k, blankLines bytes = 2 * k ∧
    bytes = blank k ++ bytes.drop (blankLines bytes) ∧
      ¬ crlf <+: bytes.drop (blankLines bytes) := by
  obtain ⟨k, rest, hbytes, hrest⟩ : ∃ k rest, bytes = blank k ++ rest ∧ ¬ crlf <+: rest := by
    induction hn : bytes.length using Nat.strongRecOn generalizing bytes with
    | ind n ih =>
      by_cases hp : crlf <+: bytes
      · obtain ⟨rest, rfl⟩ := hp
        have hlt : rest.length < n := by
          rw [← hn, List.length_append]
          exact Nat.lt_add_of_pos_left (by decide)
        obtain ⟨k, rest', rfl, hrest⟩ := ih _ hlt rest rfl
        exact ⟨k + 1, rest', by rw [blank_succ, List.append_assoc], hrest⟩
      · exact ⟨0, bytes, rfl, hp⟩
  have hlen : blankLines bytes = 2 * k := by rw [hbytes, blankLines_blank_append hrest]
  have hdrop : bytes.drop (blankLines bytes) = rest := by
    rw [hlen, hbytes, ← length_blank k, List.drop_left]
  exact ⟨k, hlen, by rw [hdrop]; exact hbytes, by rwa [hdrop]⟩

end HttpEcho.Bytes
