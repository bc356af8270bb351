import HttpEcho.Head.Parser
import HttpEcho.Proofs.Bytes

/-!
# The lines of a head

A head is looked at twice: a window of four octets finds its ending, and what stands before the
ending is cut into lines at each CR LF. The two agree because a line end in front of a line end is
an empty line: behind the blank lines at the front, the ending stands where the first empty line is
(`Head.search_headEnd_of_lines`), and without an ending no line is empty but perhaps the one that
has not ended (`Head.ne_nil_of_mem_dropLast_lines`). A run such as CR CR LF CR LF makes no
difference, since a CR LF shares no octet with the next one.
-/

namespace HttpEcho.Head

variable {bytes line text : Bytes}

/-- The ending of a head is an empty line behind its lines. -/
theorem lines_append_headEnd (text more : Bytes) :
    Bytes.lines (text ++ (headEnd ++ more)) = Bytes.lines text ++ [] :: Bytes.lines more := by
  rw [headEnd, List.append_assoc, Bytes.lines_append_crlf_append, Bytes.lines_crlf_append]

/-- An ending that is found stands behind a text. -/
theorem exists_text_of_search {pos : Nat} (h : Bytes.search headEnd bytes = some pos) :
    ∃ text more, bytes = text ++ (headEnd ++ more) ∧ text.length = pos :=
  ⟨_, _, Bytes.eq_append_of_search h, List.length_take_of_le (Bytes.search_eq_some_iff.1 h).1⟩

/-- The lines before the first empty one are those in front of the ending. -/
theorem takeWhile_lines (h : ∀ line ∈ Bytes.lines text, line ≠ []) (more : Bytes) :
    (Bytes.lines (text ++ (headEnd ++ more))).takeWhile (· ≠ []) = Bytes.lines text := by
  rw [lines_append_headEnd, List.takeWhile_append_of_pos fun line hline =>
    decide_eq_true (h line hline), List.takeWhile_cons_of_neg (by simp), List.append_nil]

/-- Only the last line of a text can be empty, unless the text begins with a line end or has the
ending of a head in it. -/
theorem ne_nil_of_mem_dropLast_lines (hfirst : ¬ Bytes.crlf <+: bytes) (hend : ¬ headEnd <:+: bytes)
    (h : line ∈ (Bytes.lines bytes).dropLast) : line ≠ [] := by
  induction bytes using Bytes.cut_induction with
  | last last hlast =>
    rw [Bytes.lines_of_noCrlf hlast] at h
    cases h
  | cut first rest hline ih =>
    rw [Bytes.lines_append_crlf hline, List.dropLast_cons_of_ne_nil (Bytes.lines_ne_nil rest)] at h
    rcases List.mem_cons.1 h with rfl | h
    · rintro rfl
      exact hfirst (List.prefix_append _ _)
    · refine ih (fun hp => hend ?_) (fun hin => hend ?_) h
      · -- a line end behind the end of a line is the ending of a head
        obtain ⟨more, rfl⟩ := hp
        exact ⟨first, more, by simp only [headEnd, List.append_assoc]⟩
      · exact hin.trans ((List.suffix_append _ _).trans (List.suffix_append _ _)).isInfix

/-- No line in front of the first ending is empty, unless the text begins with a line end. -/
theorem ne_nil_of_mem_lines {more : Bytes} (hfirst : ¬ Bytes.crlf <+: text ++ (headEnd ++ more))
    (hsearch : Bytes.search headEnd (text ++ (headEnd ++ more)) = some text.length)
    (h : line ∈ Bytes.lines text) : line ≠ [] := by
  -- the text and one line end are too short to hold an ending
  have htake : (text ++ (headEnd ++ more)).take (text.length + 2) = text ++ Bytes.crlf := by
    rw [List.take_length_add_append]
    rfl
  have hend := Bytes.not_infix_take_of_search (m := text.length + 2) hsearch
    (Nat.add_lt_add_left (by decide) _)
  rw [htake] at hend
  have hlines : Bytes.lines (text ++ Bytes.crlf) = Bytes.lines text ++ [[]] := by
    have hnil := Bytes.lines_append_crlf_append text []
    rwa [List.append_nil] at hnil
  refine ne_nil_of_mem_dropLast_lines (fun hp => hfirst (hp.trans ?_)) hend ?_
  · rw [← htake]
    exact List.take_prefix _ _
  · rwa [hlines, List.dropLast_concat]

/-- **The first ending stands behind lines that are not empty.** -/
theorem search_headEnd_of_lines (h : ∀ line ∈ Bytes.lines text, line ≠ []) (more : Bytes) :
    Bytes.search headEnd (text ++ (headEnd ++ more)) = some text.length := by
  have hfirst : ¬ Bytes.crlf <+: text ++ (headEnd ++ more) := by
    rintro ⟨rest, hrest⟩
    obtain ⟨first, others, hlines⟩ := List.exists_cons_of_ne_nil (Bytes.lines_ne_nil text)
    have hsplit := lines_append_headEnd text more
    rw [← hrest, Bytes.lines_crlf_append, hlines] at hsplit
    exact h first (hlines ▸ List.mem_cons_self) (List.cons.inj hsplit).1.symm
  cases hsearch : Bytes.search headEnd (text ++ (headEnd ++ more)) with
  | none => exact absurd ⟨text, more, List.append_assoc _ _ _⟩ (Bytes.search_eq_none_iff.1 hsearch)
  | some pos =>
    obtain ⟨front, back, hfront, rfl⟩ := exists_text_of_search hsearch
    rw [hfront] at hfirst hsearch
    -- both are made up of the lines before the first empty one
    have hlines := takeWhile_lines (fun _ hline => ne_nil_of_mem_lines hfirst hsearch hline) back
    rw [← hfront, takeWhile_lines h] at hlines
    rw [← Bytes.intercalate_lines text, hlines, Bytes.intercalate_lines]

/-- There is an ending exactly if a line is empty that is not the last one. -/
theorem search_headEnd_eq_none_iff (hfirst : ¬ Bytes.crlf <+: bytes) :
    Bytes.search headEnd bytes = none ↔ ∀ line ∈ (Bytes.lines bytes).dropLast, line ≠ [] := by
  constructor
  · intro hnone line hline
    exact ne_nil_of_mem_dropLast_lines hfirst (Bytes.search_eq_none_iff.1 hnone) hline
  · intro hempty
    refine Option.eq_none_iff_forall_ne_some.2 fun pos hsearch => hempty [] ?_ rfl
    obtain ⟨text, more, rfl, -⟩ := exists_text_of_search hsearch
    rw [lines_append_headEnd, List.dropLast_append_of_ne_nil (List.cons_ne_nil _ _),
      List.dropLast_cons_of_ne_nil (Bytes.lines_ne_nil _)]
    exact List.mem_append_right _ List.mem_cons_self

/-- **The two scans of a head agree.** Behind the blank lines at the front, the lines in front of
the ending are not empty, have no line end in them and make up the head, and the ending is the empty
line behind them. There is an ending exactly if a line is empty that is not the last one. The lines
are those that come off one after the other, each up to the first line end of what is left. -/
theorem lines_up_to_ending (buffer : Bytes) :
    let rest := buffer.drop buffer.blankLines
    (∃ k, buffer = Bytes.blank k ++ rest ∧ ¬ Bytes.crlf <+: rest) ∧
    (∀ pos, Bytes.search headEnd rest = some pos →
      (∀ line ∈ Bytes.lines (rest.take pos), line ≠ [] ∧ ¬ Bytes.crlf <:+: line) ∧
      Bytes.crlf.intercalate (Bytes.lines (rest.take pos)) = rest.take pos ∧
      Bytes.lines rest = Bytes.lines (rest.take pos) ++ [] :: Bytes.lines (rest.drop (pos + 4))) ∧
    (Bytes.search headEnd rest = none ↔ ∀ line ∈ (Bytes.lines rest).dropLast, line ≠ []) ∧
    ∀ text : Bytes, Bytes.lines text =
      match Bytes.cutLine? text with
      | none => [text]
      | some (line, rest) => line :: Bytes.lines rest := by
  intro rest
  obtain ⟨k, -, hbuffer, hfirst⟩ := Bytes.exists_blank buffer
  refine ⟨⟨k, hbuffer, hfirst⟩, fun pos hsearch => ?_, search_headEnd_eq_none_iff hfirst,
    Bytes.lines_eq_cutLine?⟩
  refine ⟨fun line hline => ⟨?_, Bytes.noCrlf_of_mem_lines hline⟩, Bytes.intercalate_lines _, ?_⟩
  all_goals obtain ⟨text, more, hrest, rfl⟩ := exists_text_of_search hsearch
  · change ¬ Bytes.crlf <+: rest at hfirst
    rw [hrest, List.take_left] at hline
    rw [hrest] at hfirst hsearch
    exact ne_nil_of_mem_lines hfirst hsearch hline
  · have hmore : (text ++ (headEnd ++ more)).drop (text.length + 4) = more := by
      rw [← List.drop_drop, List.drop_left]
      rfl
    rw [hrest, List.take_left, hmore, lines_append_headEnd]

/-- A head with a CR at the end of its first line, between a blank line and two others. -/
def crowded : Bytes := Utf8.encode "\r\nA\r\r\nB\r\n\r\n\r\nC"

/-- Its ending, and its two lines. -/
theorem lines_up_to_ending_crowded :
    let rest := crowded.drop crowded.blankLines
    Bytes.search headEnd rest = some 5 ∧
    Bytes.lines (rest.take 5) = [Utf8.encode "A\r", Utf8.encode "B"] ∧
    (∀ line ∈ Bytes.lines (rest.take 5), line ≠ [] ∧ ¬ Bytes.crlf <:+: line) ∧
    Bytes.crlf.intercalate (Bytes.lines (rest.take 5)) = rest.take 5 ∧
    Bytes.lines rest = Bytes.lines (rest.take 5) ++ [] :: Bytes.lines (rest.drop 9) := by
  intro rest
  have hsearch : Bytes.search headEnd rest = some 5 := by decide
  exact ⟨hsearch, by decide, (lines_up_to_ending crowded).2.1 5 hsearch⟩

end HttpEcho.Head
