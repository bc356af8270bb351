import HttpEcho.Proofs.Body.Reader
import HttpEcho.Proofs.Body.SizeLine

/-!
# Chunked bodies

`Chunked` says which texts are chunked bodies, and what their chunks are. `Body.Phase.Remains` says
the same of what is left of such a text in the middle of reading it, and is kept by every look at
the buffer (`Body.continues_of_remains`): however much of the text is there, reading waits for more
of it, passes over what only delimits chunks, or delivers the next chunk.
-/

namespace HttpEcho

/-- The front of a string of octets that comes in two parts. -/
theorem Bytes.split_of_append_eq {buffer stream front back : Bytes}
    (h : buffer ++ stream = front ++ back) (hle : front.length ≤ buffer.length) :
    buffer.take front.length = front ∧ buffer.drop front.length ++ stream = back := by
  have htake : buffer.take front.length = front := by
    rw [← List.take_append_of_le_length hle, h, List.take_left]
  refine ⟨htake, ?_⟩
  rw [← List.drop_append_of_le_length hle, h, List.drop_left]

/-- A trailer line: not blank, within one line, and short enough to be waited for. -/
def IsTrailer (line : Bytes) : Prop :=
  line ≠ [] ∧ ¬ Bytes.crlf <:+: line ∧ line.length < maxLineLength

/-- Trailer lines and the blank line after them. -/
def trailerText (trailers : List Bytes) : Bytes :=
  trailers.flatMap (· ++ Bytes.crlf) ++ Bytes.crlf

theorem trailerText_cons (line : Bytes) (trailers : List Bytes) :
    trailerText (line :: trailers) = line ++ (Bytes.crlf ++ trailerText trailers) := by
  rw [trailerText, List.flatMap_cons, List.append_assoc, List.append_assoc]
  rfl

/-- The text of a chunked body, and the chunks that it carries: size lines that are short enough to
be waited for, each with its chunk, up to a chunk of size zero; then trailers. -/
inductive Chunked : Bytes → List Bytes → Prop
  | last {line : SizeText} {trailers : List Bytes} (hsize : line.size = 0)
      (hline : line.wire.length < maxLineLength) (htrailers : ∀ t ∈ trailers, IsTrailer t) :
      Chunked (line.wire ++ (Bytes.crlf ++ trailerText trailers)) []
  | chunk {line : SizeText} {octets text : Bytes} {chunks : List Bytes}
      (hsize : line.size = octets.length) (hne : octets ≠ [])
      (hline : line.wire.length < maxLineLength) (hrest : Chunked text chunks) :
      Chunked (line.wire ++ (Bytes.crlf ++ (octets ++ (Bytes.crlf ++ text)))) (octets :: chunks)

namespace Body

/-- What is left of the text of a chunked body, and of its chunks. -/
def Phase.Remains : Phase → Bytes → List Bytes → Prop
  | .sizeLine, text, chunks => Chunked text chunks
  | .data size, text, chunks => ∃ octets text' chunks', octets.length = size ∧
      text = octets ++ (Bytes.crlf ++ text') ∧ chunks = octets :: chunks' ∧ Chunked text' chunks'
  | .trailers, text, chunks => chunks = [] ∧
      ∃ trailers, (∀ t ∈ trailers, IsTrailer t) ∧ text = trailerText trailers
  | .done, text, chunks => text = [] ∧ chunks = []
  | .length _, _, _ => False

/-- What a look at the buffer may give when the text and the chunks are left, the stream is still to
come, and other octets follow the text. -/
def Step.Continues (body : Body) (text : Bytes) (chunks : List Bytes)
    (buffer stream after : Bytes) :
    Step → Prop
  | .chunk octets next rest => ∃ text' chunks', chunks = octets :: chunks' ∧
      next.phase.Remains text' chunks' ∧ rest ++ stream = text' ++ after ∧
        next.limit = body.limit ∧ next.received = body.received + octets.length
  | .skip next rest => ∃ text', next.phase.Remains text' chunks ∧ rest ++ stream = text' ++ after ∧
      next.limit = body.limit ∧ next.received = body.received
  | .wait => buffer.length < text.length
  | .done => text = [] ∧ chunks = []
  | .refuse _ => False

variable {body : Body} {text buffer stream after : Bytes} {chunks : List Bytes}

/-- A line that is short enough is waited for. -/
theorem waitForLine_eq_wait {line : Bytes} (tooLong : String) (hline : line.length < maxLineLength)
    (hbuffer : ¬ line.length + 2 ≤ buffer.length) : waitForLine buffer tooLong = .wait := by
  rw [waitForLine, if_neg (by omega)]

/-- A text is no shorter than its first line with the line end. -/
theorem length_line_le (line more : Bytes) :
    line.length + 2 ≤ (line ++ (Bytes.crlf ++ more)).length := by
  rw [List.length_append, List.length_append]
  exact Nat.add_le_add_left (Nat.le_add_right 2 _) _

/-- A line with its line end, taken off the front. -/
theorem drop_line {line more : Bytes} (heq : buffer ++ stream = line ++ (Bytes.crlf ++ more))
    (hle : line.length + 2 ≤ buffer.length) :
    buffer.drop (line.length + 2) ++ stream = more := by
  have hlength : (line ++ Bytes.crlf).length = line.length + 2 := List.length_append
  rw [← List.append_assoc] at heq
  have hdrop := (Bytes.split_of_append_eq heq (hlength ▸ hle)).2
  rwa [hlength] at hdrop

/-- A size line is waited for, and then leads to the trailers or to its chunk. -/
theorem step_sizeLine {line : SizeText} {more : Bytes} (hphase : body.phase = .sizeLine)
    (hline : line.wire.length < maxLineLength)
    (heq : buffer ++ stream = line.wire ++ (Bytes.crlf ++ more)) :
    (buffer.length < line.wire.length + 2 ∧ body.step buffer = .wait) ∨
      ∃ rest, rest ++ stream = more ∧ body.step buffer =
        if line.size = 0 then .skip { body with phase := .trailers } rest
        else if body.limit < body.received + line.size then .refuse (.tooLarge body.limit)
        else .skip { body with phase := .data line.size } rest := by
  have hparse := line.parse_of_append_eq heq
  by_cases hle : line.wire.length + 2 ≤ buffer.length
  · refine .inr ⟨buffer.drop (line.wire.length + 2), drop_line heq hle, ?_⟩
    rw [step, hphase]
    dsimp only
    rw [hparse, if_pos hle]
  · refine .inl ⟨Nat.lt_of_not_le hle, ?_⟩
    rw [step, hphase]
    dsimp only
    rw [hparse, if_neg hle]
    exact waitForLine_eq_wait _ hline hle

theorem continues_of_chunked (hphase : body.phase = .sizeLine) (h : Chunked text chunks)
    (hlimit : body.received + chunks.flatten.length ≤ body.limit)
    (heq : buffer ++ stream = text ++ after) :
    (body.step buffer).Continues body text chunks buffer stream after := by
  cases h with
  | @last line trailers hsize hline htrailers =>
    have hsplit : buffer ++ stream =
        line.wire ++ (Bytes.crlf ++ (trailerText trailers ++ after)) := by
      rw [heq, List.append_assoc, List.append_assoc]
    obtain ⟨hlt, hstep⟩ | ⟨rest, hrest, hstep⟩ := step_sizeLine hphase hline hsplit
    · rw [hstep]
      exact Nat.lt_of_lt_of_le hlt (length_line_le _ _)
    · rw [hstep, if_pos hsize]
      exact ⟨trailerText trailers, ⟨rfl, trailers, htrailers, rfl⟩, hrest, rfl, rfl⟩
  | @chunk line octets text chunks hsize hne hline hchunked =>
    have hsplit : buffer ++ stream =
        line.wire ++ (Bytes.crlf ++ (octets ++ (Bytes.crlf ++ text) ++ after)) := by
      rw [heq, List.append_assoc, List.append_assoc]
    obtain ⟨hlt, hstep⟩ | ⟨rest, hrest, hstep⟩ := step_sizeLine hphase hline hsplit
    · rw [hstep]
      exact Nat.lt_of_lt_of_le hlt (length_line_le _ _)
    · -- there is room for the chunk, and it is not the last one
      have hsize' : line.size ≠ 0 := by
        rw [hsize]
        exact fun hzero => hne (List.length_eq_zero_iff.1 hzero)
      have hroom : ¬ body.limit < body.received + line.size := by
        rw [List.flatten_cons, List.length_append] at hlimit
        omega
      rw [hstep, if_neg hsize', if_neg hroom]
      exact ⟨_, ⟨octets, text, chunks, hsize.symm, rfl, rfl, hchunked⟩, hrest, rfl, rfl⟩

/-- In the middle of a chunk the body continues with the rest of it, once that is there. -/
theorem continues_of_data {size : Nat} (hphase : body.phase = .data size)
    (h : (Phase.data size).Remains text chunks) (heq : buffer ++ stream = text ++ after) :
    (body.step buffer).Continues body text chunks buffer stream after := by
  obtain ⟨octets, text', chunks', hsize, rfl, rfl, hchunked⟩ := h
  have hsplit : buffer ++ stream = octets ++ (Bytes.crlf ++ (text' ++ after)) := by
    rw [heq, List.append_assoc, List.append_assoc]
  rw [step, hphase]
  dsimp only
  by_cases hle : octets.length + 2 ≤ buffer.length
  · obtain ⟨htake, hdrop⟩ := Bytes.split_of_append_eq hsplit (by omega)
    have hcrlf : (buffer.drop octets.length).take 2 = Bytes.crlf :=
      (Bytes.split_of_append_eq hdrop
        (by rw [List.length_drop]; exact Nat.le_sub_of_add_le' hle)).1
    rw [← hsize, if_neg (Nat.not_lt.2 hle), if_pos hcrlf, htake]
    exact ⟨text', chunks', rfl, hchunked, drop_line hsplit hle, rfl, rfl⟩
  · rw [← hsize, if_pos (Nat.lt_of_not_le hle)]
    exact Nat.lt_of_lt_of_le (Nat.lt_of_not_le hle) (length_line_le _ _)

/-- A trailer line is waited for, and then passed over; the blank line ends the body. -/
theorem step_trailers {line more : Bytes} (hphase : body.phase = .trailers)
    (hcrlf : ¬ Bytes.crlf <:+: line) (hline : line.length < maxLineLength)
    (heq : buffer ++ stream = line ++ (Bytes.crlf ++ more)) :
    (buffer.length < line.length + 2 ∧ body.step buffer = .wait) ∨
      ∃ rest, rest ++ stream = more ∧ body.step buffer =
        .skip { body with phase := if line = [] then .done else .trailers } rest := by
  by_cases hle : line.length + 2 ≤ buffer.length
  · refine .inr ⟨buffer.drop (line.length + 2), drop_line heq hle, ?_⟩
    rw [step, hphase]
    dsimp only
    rw [Bytes.findCrlf?_of_append_eq hcrlf heq, if_pos hle]
    cases line with
    | nil => rfl
    | cons b line =>
      rw [if_neg (List.cons_ne_nil b line), ← hphase]
      rfl
  · refine .inl ⟨Nat.lt_of_not_le hle, ?_⟩
    rw [step, hphase]
    dsimp only
    rw [Bytes.findCrlf?_of_append_eq hcrlf heq, if_neg hle]
    exact waitForLine_eq_wait _ hline hle

theorem continues_of_trailers (hphase : body.phase = .trailers)
    (h : Phase.trailers.Remains text chunks) (heq : buffer ++ stream = text ++ after) :
    (body.step buffer).Continues body text chunks buffer stream after := by
  obtain ⟨rfl, trailers, htrailers, rfl⟩ := h
  cases trailers with
  | nil =>
    -- the blank line is a trailer line without octets
    have hblank : buffer ++ stream = [] ++ (Bytes.crlf ++ after) := heq
    obtain ⟨hlt, hstep⟩ | ⟨rest, hrest, hstep⟩ :=
      step_trailers hphase (by decide) (by decide) hblank
    · rw [hstep]
      exact hlt
    · rw [hstep, if_pos rfl]
      exact ⟨[], ⟨rfl, rfl⟩, hrest, rfl, rfl⟩
  | cons line trailers =>
    obtain ⟨⟨hne, hcrlf, hline⟩, htrailers⟩ := List.forall_mem_cons.1 htrailers
    have hsplit : buffer ++ stream = line ++ (Bytes.crlf ++ (trailerText trailers ++ after)) := by
      rw [heq, trailerText_cons, List.append_assoc, List.append_assoc]
    obtain ⟨hlt, hstep⟩ | ⟨rest, hrest, hstep⟩ := step_trailers hphase hcrlf hline hsplit
    · rw [hstep, trailerText_cons]
      exact Nat.lt_of_lt_of_le hlt (length_line_le _ _)
    · rw [hstep, if_neg hne]
      exact ⟨trailerText trailers, ⟨rfl, trailers, htrailers, rfl⟩, hrest, rfl, rfl⟩

/-- **A look at the buffer keeps what remains.** -/
theorem continues_of_remains (h : body.phase.Remains text chunks)
    (hlimit : body.received + chunks.flatten.length ≤ body.limit)
    (heq : buffer ++ stream = text ++ after) :
    (body.step buffer).Continues body text chunks buffer stream after := by
  cases hphase : body.phase with
  | sizeLine =>
    rw [hphase] at h
    exact continues_of_chunked hphase h hlimit heq
  | data size =>
    rw [hphase] at h
    exact continues_of_data hphase h heq
  | trailers =>
    rw [hphase] at h
    exact continues_of_trailers hphase h heq
  | done =>
    rw [hphase] at h
    rw [step, hphase]
    exact h
  | length remaining =>
    rw [hphase] at h
    exact h.elim

end Body

end HttpEcho
