import HttpEcho.Body.SizeLine
import HttpEcho.Head.Framing

/-!
# Reading bodies out of a buffer

A `Body` says how far the body of a request has been read. `Body.step` looks at the octets at hand
and delivers a chunk, passes over octets that only delimit chunks, asks for more octets, or stops;
`Body.advance` repeats it until there is something to report. Neither ever takes an octet that
follows the body.

A body of known length is delivered as it comes: a chunk is what is at hand, cut at the end of the
body. A chunked body is delivered in the chunks of its transfer coding, each once it is complete.
-/

namespace HttpEcho

/-- The longest size line or trailer line that is waited for. -/
def maxLineLength : Nat := 4096

/-- What comes next in a body. -/
inductive Body.Phase where
  /-- Octets of a body of known length, of which `remaining` are still to come. -/
  | length (remaining : Nat)
  /-- A size line. -/
  | sizeLine
  /-- The octets of a chunk and the line end after them. -/
  | data (size : Nat)
  /-- Trailer lines, up to a blank line. -/
  | trailers
  /-- Nothing. -/
  | done
  deriving DecidableEq, Repr

/-- A body that is being read: what comes next, how many octets it may have in all, and how many
have been delivered. -/
structure Body where
  phase : Body.Phase
  limit : Nat
  received : Nat
  deriving DecidableEq, Repr

namespace Body

/-- The body that a framing announces, before any of it is read. -/
def ofFraming (framing : Framing) (limit : Nat) : Body :=
  let phase := match framing with
    | .empty => .done
    | .length n => .length n
    | .chunked => .sizeLine
  { phase, limit, received := 0 }

/-- What one look at the buffer gives. -/
inductive Step where
  /-- A chunk; the body goes on as `next`, and `rest` is left in the buffer. -/
  | chunk (octets : Bytes) (next : Body) (rest : Bytes)
  /-- Octets that delimit chunks were passed over. -/
  | skip (next : Body) (rest : Bytes)
  /-- Nothing can be said before more octets arrive. -/
  | wait
  /-- The body is complete. -/
  | done
  /-- The body is refused; nothing was taken. -/
  | refuse (error : BodyError)
  deriving DecidableEq, Repr

/-- Wait for the end of a line, unless the line is too long already. -/
def waitForLine (buffer : Bytes) (tooLong : String) : Step :=
  if maxLineLength < buffer.length then .refuse (.malformed (.invalidChunk tooLong)) else .wait

/-- Look at the octets at hand. -/
def step (body : Body) (buffer : Bytes) : Step :=
  match body.phase with
  | .done => .done
  | .length remaining =>
    if body.limit < body.received + remaining then .refuse (.tooLarge body.limit)
    else if buffer.isEmpty then .wait
    else
      let n := min remaining buffer.length
      let phase := if remaining = n then .done else .length (remaining - n)
      .chunk (buffer.take n) { body with phase, received := body.received + n } (buffer.drop n)
  | .sizeLine =>
    match SizeLine.parse buffer with
    | .error e => .refuse e
    | .ok none => waitForLine buffer "chunk size line too long"
    | .ok (some line) =>
      if line.size = 0 then .skip { body with phase := .trailers } (buffer.drop line.width)
      else if body.limit < body.received + line.size then .refuse (.tooLarge body.limit)
      else .skip { body with phase := .data line.size } (buffer.drop line.width)
  | .data size =>
    if buffer.length < size + 2 then .wait
    else if (buffer.drop size).take 2 = Bytes.crlf then
      .chunk (buffer.take size)
        { body with phase := .sizeLine, received := body.received + size }
        (buffer.drop (size + 2))
    else .refuse (.malformed (.invalidChunk "missing CRLF after chunk data"))
  | .trailers =>
    match Bytes.findCrlf? buffer with
    | none => waitForLine buffer "trailer line too long"
    | some 0 => .skip { body with phase := .done } (buffer.drop 2)
    | some stop => .skip body (buffer.drop (stop + 2))

theorem waitForLine_ne_skip {buffer : Bytes} {text : String} {next : Body} {rest : Bytes} :
    waitForLine buffer text ≠ .skip next rest := by
  unfold waitForLine
  split <;> simp

theorem waitForLine_ne_chunk {buffer octets : Bytes} {text : String} {next : Body}
    {rest : Bytes} : waitForLine buffer text ≠ .chunk octets next rest := by
  unfold waitForLine
  split <;> simp

/-- Passing over octets takes some. -/
theorem length_of_step_skip {body next : Body} {buffer rest : Bytes}
    (h : body.step buffer = .skip next rest) : rest.length < buffer.length := by
  unfold step at h
  split at h
  · simp at h
  · dsimp only at h
    repeat' split at h
    all_goals simp at h
  · split at h
    · simp at h
    · exact absurd h waitForLine_ne_skip
    · rename_i line hline
      have := SizeLine.parse_width hline
      repeat' split at h
      all_goals simp only [Step.skip.injEq, reduceCtorEq] at h
      all_goals rw [← h.2, List.length_drop]; omega
  · repeat' split at h
    all_goals simp at h
  · split at h
    · exact absurd h waitForLine_ne_skip
    · rename_i hstop
      have := Bytes.findCrlf?_le hstop
      simp only [Step.skip.injEq] at h
      rw [← h.2, List.length_drop]; omega
    · rename_i hstop
      have := Bytes.findCrlf?_le hstop
      simp only [Step.skip.injEq] at h
      rw [← h.2, List.length_drop]; omega

/-- A measure that falls with every chunk: the octets at hand, and one more for a body that is
not complete. -/
def measure (body : Body) (buffer : Bytes) : Nat :=
  buffer.length + if body.phase = .done then 0 else 1

theorem measure_le (body : Body) (buffer : Bytes) : body.measure buffer ≤ buffer.length + 1 := by
  unfold measure
  split <;> omega

/-- Delivering a chunk takes some octets or completes the body. -/
theorem measure_of_step_chunk {body next : Body} {buffer octets rest : Bytes}
    (h : body.step buffer = .chunk octets next rest) :
    next.measure rest < body.measure buffer ∧ rest.length ≤ buffer.length := by
  unfold step at h
  split at h
  · simp at h
  · rename_i remaining hphase
    split at h
    · simp at h
    split at h
    · simp at h
    · rename_i hempty
      have hpos : 0 < buffer.length := by
        cases buffer with
        | nil => simp at hempty
        | cons _ _ => simp
      simp only [Step.chunk.injEq] at h
      obtain ⟨-, rfl, rfl⟩ := h
      simp only [measure, hphase, List.length_drop, reduceCtorEq, if_false]
      by_cases hlast : remaining = min remaining buffer.length
      · rw [if_pos hlast]
        simp only [if_true]
        omega
      · rw [if_neg hlast]
        simp only [reduceCtorEq, if_false]
        omega
  · split at h
    · simp at h
    · exact absurd h waitForLine_ne_chunk
    · repeat' split at h
      all_goals simp at h
  · rename_i size hphase
    repeat' split at h
    all_goals simp only [Step.chunk.injEq, reduceCtorEq] at h
    obtain ⟨-, rfl, rfl⟩ := h
    simp only [measure, hphase, List.length_drop, reduceCtorEq, if_false]
    omega
  · split at h
    · exact absurd h waitForLine_ne_chunk
    all_goals simp at h

/-- What reading on gives. -/
inductive Outcome where
  /-- The next chunk. -/
  | chunk (octets : Bytes)
  /-- The body is complete. -/
  | complete
  /-- More octets are needed. -/
  | wait
  /-- The body is refused. -/
  | refused (error : BodyError)
  deriving DecidableEq, Repr

/-- What reading on gives, and the state after it. -/
structure Advance where
  outcome : Outcome
  body : Body
  rest : Bytes
  deriving DecidableEq, Repr

/-- Read on until there is something to report. -/
def advance (body : Body) (buffer : Bytes) : Advance :=
  match _h : body.step buffer with
  | .chunk octets next rest => ⟨.chunk octets, next, rest⟩
  | .skip next rest => advance next rest
  | .wait => ⟨.wait, body, buffer⟩
  | .done => ⟨.complete, body, buffer⟩
  | .refuse error => ⟨.refused error, body, buffer⟩
termination_by buffer.length
decreasing_by exact length_of_step_skip _h

/-- Reading on never adds octets, and each chunk lowers the measure. -/
theorem advance_le (body : Body) (buffer : Bytes) :
    (body.advance buffer).rest.length ≤ buffer.length ∧
      ∀ octets, (body.advance buffer).outcome = .chunk octets →
        (body.advance buffer).body.measure (body.advance buffer).rest < body.measure buffer := by
  fun_induction advance body buffer with
  | case1 body buffer octets next rest h =>
    exact ⟨(measure_of_step_chunk h).2, fun _ _ => (measure_of_step_chunk h).1⟩
  | case2 body buffer next rest h ih =>
    have hlt := length_of_step_skip h
    refine ⟨by omega, fun octets ho => ?_⟩
    have := ih.2 octets ho
    have hm : next.measure rest ≤ body.measure buffer := by
      unfold step at h
      split at h
      · simp at h
      all_goals
        rename_i hphase
        simp only [measure, hphase, reduceCtorEq, if_false]
        split <;> omega
    omega
  | case3 => exact ⟨Nat.le_refl _, by simp⟩
  | case4 => exact ⟨Nat.le_refl _, by simp⟩
  | case5 => exact ⟨Nat.le_refl _, by simp⟩

end Body

end HttpEcho
