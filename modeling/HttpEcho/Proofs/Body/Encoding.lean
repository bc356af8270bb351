import HttpEcho.Proofs.Body.Chunked
import HttpEcho.Proofs.Body.Growth

/-!
# Chunked bodies that are at hand

What reading on gives when a chunk (`Body.advance_chunk`), the size line of a chunk that is too
large (`Body.advance_tooLarge`) or the end of a body (`Body.advance_last`) is at the front of the
buffer. The lines may have any length, for they are there.
-/

namespace HttpEcho.Body

variable {body : Body} {line : SizeText} {octets : Bytes}

/-- A size line that is there leads to the trailers or to its chunk. -/
theorem step_wire (hphase : body.phase = .sizeLine) (line : SizeText) (rest : Bytes) :
    body.step (line.wire ++ (Bytes.crlf ++ rest)) =
      if line.size = 0 then .skip { body with phase := .trailers } rest
      else if body.limit < body.received + line.size then .refuse (.tooLarge body.limit)
      else .skip { body with phase := .data line.size } rest := by
  have hparse := line.parse_of_append_eq (List.append_nil (line.wire ++ (Bytes.crlf ++ rest)))
  rw [step, hphase]
  dsimp only
  rw [hparse, if_pos (length_line_le line.wire rest)]
  dsimp only
  rw [Bytes.drop_line_self]

/-- A chunk that is at hand with its line end is delivered. -/
theorem step_data (hphase : body.phase = .data octets.length) (rest : Bytes) :
    body.step (octets ++ (Bytes.crlf ++ rest)) =
      .chunk octets
        { body with phase := .sizeLine, received := body.received + octets.length } rest := by
  have hcrlf : ((octets ++ (Bytes.crlf ++ rest)).drop octets.length).take 2 = Bytes.crlf := by
    rw [List.drop_left]
    rfl
  rw [step, hphase]
  dsimp only
  rw [if_neg (Nat.not_lt.2 (length_line_le octets rest)), if_pos hcrlf, List.take_left,
    Bytes.drop_line_self]

/-- A trailer line that is there is passed over, and a blank line ends the body. -/
theorem step_trailer {trailer : Bytes} (hphase : body.phase = .trailers)
    (hcrlf : ¬ Bytes.crlf <:+: trailer) (rest : Bytes) :
    body.step (trailer ++ (Bytes.crlf ++ rest)) =
      .skip { body with phase := if trailer = [] then .done else .trailers } rest := by
  have hdrop := Bytes.drop_line_self trailer rest
  rw [step, hphase]
  dsimp only
  rw [Bytes.findCrlf?_append_crlf hcrlf]
  cases trailer with
  | nil => rfl
  | cons b trailer =>
    rw [if_neg (List.cons_ne_nil b trailer), ← hphase]
    exact congrArg _ hdrop

/-- **A chunk that is at hand** is delivered, if there is room for it. -/
theorem advance_chunk (hphase : body.phase = .sizeLine) (hsize : line.size = octets.length)
    (hne : octets ≠ []) (hlimit : body.received + octets.length ≤ body.limit) (rest : Bytes) :
    body.advance (line.wire ++ (Bytes.crlf ++ (octets ++ (Bytes.crlf ++ rest)))) =
      ⟨.chunk octets, { body with received := body.received + octets.length }, rest⟩ := by
  have hsize' : line.size ≠ 0 := hsize ▸ mt List.length_eq_zero_iff.1 hne
  have hwire := step_wire hphase line (octets ++ (Bytes.crlf ++ rest))
  rw [if_neg hsize', if_neg (by omega)] at hwire
  rw [advance_of_skip hwire, advance_of_chunk (step_data (congrArg Phase.data hsize) rest), hphase]

/-- **A chunk that is too large** is refused as soon as its size line is at hand. -/
theorem advance_tooLarge (hphase : body.phase = .sizeLine)
    (hlimit : body.limit < body.received + line.size) (hreceived : body.received ≤ body.limit)
    (rest : Bytes) :
    body.advance (line.wire ++ (Bytes.crlf ++ rest)) =
      ⟨.refused (.tooLarge body.limit), body, line.wire ++ (Bytes.crlf ++ rest)⟩ := by
  refine advance_of_refuse ?_
  rw [step_wire hphase, if_neg (by omega), if_pos hlimit]

theorem advance_trailers {trailers : List Bytes} (hphase : body.phase = .trailers)
    (h : ∀ t ∈ trailers, t ≠ [] ∧ ¬ Bytes.crlf <:+: t) (rest : Bytes) :
    body.advance (trailerText trailers ++ rest) =
      ⟨.complete, { body with phase := .done }, rest⟩ := by
  induction trailers with
  | nil =>
    have hblank := step_trailer hphase (by decide : ¬ Bytes.crlf <:+: []) rest
    rw [if_pos rfl] at hblank
    exact (advance_of_skip hblank).trans (advance_of_done rfl)
  | cons trailer trailers ih =>
    obtain ⟨⟨hne, hcrlf⟩, htrailers⟩ := List.forall_mem_cons.1 h
    have hskip := step_trailer hphase hcrlf (trailerText trailers ++ rest)
    rw [if_neg hne, ← hphase] at hskip
    rw [trailerText_cons, List.append_assoc, List.append_assoc, advance_of_skip hskip]
    exact ih htrailers

/-- **The end of a body that is at hand**: a size line of zero, and trailers. -/
theorem advance_last {trailers : List Bytes} (hphase : body.phase = .sizeLine)
    (hsize : line.size = 0) (h : ∀ t ∈ trailers, t ≠ [] ∧ ¬ Bytes.crlf <:+: t) (rest : Bytes) :
    body.advance (line.wire ++ (Bytes.crlf ++ (trailerText trailers ++ rest))) =
      ⟨.complete, { body with phase := .done }, rest⟩ := by
  have hwire := step_wire hphase line (trailerText trailers ++ rest)
  rw [if_pos hsize] at hwire
  rw [advance_of_skip hwire, advance_trailers rfl h]

end HttpEcho.Body
