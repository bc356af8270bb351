import HttpEcho.Proofs.Body.Reader
import HttpEcho.Proofs.Bytes

/-!
# Bodies and octets that arrive later

What a look at the buffer says is final if what comes next is there to its end (`Body.Decides`):
with more octets at hand it says the same, and leaves them too (`Body.step_append`). A look that
decides nothing waits, or refuses a line for its length (`Body.step_of_not_decides`). So reading on
from what is at hand, and then from what was left and the octets that have arrived since, is reading
on from all of them at once (`Body.advance_append` and `Body.advance_append_of_stop`).
-/

namespace HttpEcho

namespace Body

/-- Whether a line comes next. -/
def Phase.readsLine : Phase → Bool
  | .sizeLine | .trailers => true
  | _ => false

/-- What is said of a line that is too long. -/
def Phase.tooLong : Phase → String
  | .sizeLine => "chunk size line too long"
  | _ => "trailer line too long"

/-- The body comes in chunks, or nothing of it is left. -/
def IsChunked (body : Body) : Prop := ∀ remaining, body.phase ≠ .length remaining

/-- What comes next is there to its end. -/
def Decides (body : Body) (buffer : Bytes) : Prop :=
  match body.phase with
  | .length _ => False
  | .sizeLine | .trailers => ∃ stop, Bytes.findCrlf? buffer = some stop
  | .data size => size + 2 ≤ buffer.length
  | .done => True

/-- A look at a buffer, with more octets behind what it leaves. -/
def Step.append (more : Bytes) : Step → Step
  | .chunk octets next rest => .chunk octets next (rest ++ more)
  | .skip next rest => .skip next (rest ++ more)
  | step => step

/-- A reading, with more octets behind what it leaves. -/
def Advance.append (more : Bytes) (a : Advance) : Advance := { a with rest := a.rest ++ more }

variable {body next : Body} {buffer rest octets more : Bytes}

/-! ### One look -/

/-- A line that has ended is read, and read alike whatever follows it. -/
theorem parse_append {stop : Nat} (h : Bytes.findCrlf? buffer = some stop) (more : Bytes) :
    SizeLine.parse (buffer ++ more) = SizeLine.parse buffer ∧
      SizeLine.parse buffer ≠ .ok none := by
  have hmore : Bytes.findCrlf? (buffer ++ more) = some stop := Bytes.search_append h more
  have hle := Bytes.findCrlf?_le h
  have htake : (buffer ++ more).take stop = buffer.take stop :=
    List.take_append_of_le_length (by omega)
  rw [SizeLine.parse, SizeLine.parse, hmore, h]
  dsimp only
  rw [htake]
  refine ⟨rfl, ?_⟩
  split <;> exact nofun

/-- **A look that decides says the same when more octets are at hand.** -/
theorem step_append (h : body.Decides buffer) (more : Bytes) :
    body.step (buffer ++ more) = (body.step buffer).append more := by
  unfold Decides at h
  rw [step, step]
  cases hphase : body.phase with
  | length remaining =>
    rw [hphase] at h
    exact h.elim
  | sizeLine =>
    rw [hphase] at h
    obtain ⟨stop, hstop⟩ := h
    obtain ⟨hparse, hne⟩ := parse_append hstop more
    dsimp only
    rw [hparse]
    match hline : SizeLine.parse buffer with
    | .error e => rfl
    | .ok none => exact absurd hline hne
    | .ok (some line) =>
      dsimp only
      rw [List.drop_append_of_le_length (SizeLine.parse_width hline).2]
      split
      · rfl
      split <;> rfl
  | data size =>
    rw [hphase] at h
    have hle : size + 2 ≤ buffer.length := h
    -- the chunk and its line end are at hand, and stay where they are
    have hlonger : ¬ (buffer ++ more).length < size + 2 := by
      rw [List.length_append]
      omega
    have hcrlf : ((buffer ++ more).drop size).take 2 = (buffer.drop size).take 2 := by
      rw [List.drop_append_of_le_length (by omega),
        List.take_append_of_le_length (by rw [List.length_drop]; omega)]
    dsimp only
    rw [if_neg hlonger, if_neg (Nat.not_lt.2 hle), hcrlf, List.take_append_of_le_length (by omega),
      List.drop_append_of_le_length hle]
    split <;> rfl
  | trailers =>
    rw [hphase] at h
    obtain ⟨stop, hstop⟩ := h
    have hmore : Bytes.findCrlf? (buffer ++ more) = some stop := Bytes.search_append hstop more
    have hdrop : (buffer ++ more).drop (stop + 2) = buffer.drop (stop + 2) ++ more :=
      List.drop_append_of_le_length (Bytes.findCrlf?_le hstop)
    dsimp only
    rw [hmore, hstop]
    cases stop with
    | zero => exact congrArg (Step.skip _) hdrop
    | succ stop => exact congrArg (Step.skip _) hdrop
  | done => rfl

/-- Where a line is read, it is decided on once its end is there. -/
theorem decides_iff_of_readsLine (hline : body.phase.readsLine) :
    body.Decides buffer ↔ ∃ stop, Bytes.findCrlf? buffer = some stop := by
  unfold Decides
  cases hphase : body.phase with
  | sizeLine | trailers => exact Iff.rfl
  | length | data | done =>
    rw [hphase] at hline
    cases hline

theorem step_of_noLine (hline : body.phase.readsLine) (h : Bytes.findCrlf? buffer = none) :
    body.step buffer = waitForLine buffer body.phase.tooLong := by
  rw [step]
  cases hphase : body.phase with
  | sizeLine =>
    dsimp only
    rw [SizeLine.parse, h]
    rfl
  | trailers =>
    dsimp only
    rw [h]
    rfl
  | length | data | done =>
    rw [hphase] at hline
    cases hline

/-- A look that decides nothing waits, or refuses the beginning of a line for its length. -/
theorem step_of_not_decides (hchunked : body.IsChunked) (h : ¬ body.Decides buffer) :
    body.step buffer = .wait ∨
      body.phase.readsLine ∧ Bytes.findCrlf? buffer = none ∧ maxLineLength < buffer.length ∧
        body.step buffer = .refuse (.malformed (.invalidChunk body.phase.tooLong)) := by
  by_cases hline : body.phase.readsLine
  · have hnone : Bytes.findCrlf? buffer = none := Option.eq_none_iff_forall_ne_some.2
      fun stop hstop => h ((decides_iff_of_readsLine hline).2 ⟨stop, hstop⟩)
    rw [step_of_noLine hline hnone, waitForLine]
    by_cases hlt : maxLineLength < buffer.length
    · exact .inr ⟨hline, hnone, hlt, if_pos hlt⟩
    · exact .inl (if_neg hlt)
  · unfold Decides at h
    rw [step]
    cases hphase : body.phase with
    | length remaining => exact absurd hphase (hchunked remaining)
    | data size =>
      rw [hphase] at h
      exact .inl (if_pos (Nat.lt_of_not_le h))
    | done =>
      rw [hphase] at h
      exact absurd trivial h
    | sizeLine | trailers =>
      rw [hphase] at hline
      exact absurd rfl hline

/-- A chunk that is delivered was decided on. -/
theorem decides_of_step_chunk (hchunked : body.IsChunked)
    (h : body.step buffer = .chunk octets next rest) : body.Decides buffer := by
  refine Classical.byContradiction fun hdecides => ?_
  obtain hstep | ⟨-, -, -, hstep⟩ := step_of_not_decides hchunked hdecides
  · cases h.symm.trans hstep
  · cases h.symm.trans hstep

/-- What is passed over is a line with its end. -/
theorem line_of_step_skip (h : body.step buffer = .skip next rest) :
    ∃ stop, Bytes.findCrlf? buffer = some stop ∧ rest = buffer.drop (stop + 2) := by
  obtain ⟨line, -, hline, hrest, -⟩ | ⟨stop, -, hstop, hrest, -⟩ := step_skip_cases h
  · unfold SizeLine.parse at hline
    split at hline
    · cases hline
    rename_i stop hstop
    dsimp only at hline
    split at hline
    · cases hline
    cases hline
    exact ⟨stop, hstop, hrest⟩
  · exact ⟨stop, hstop, hrest⟩

theorem isChunked_of_step_skip (h : body.step buffer = .skip next rest) :
    body.IsChunked ∧ next.IsChunked := by
  obtain ⟨line, hphase, -, -, ⟨-, rfl⟩ | ⟨-, -, rfl⟩⟩ | ⟨stop, hphase, -, -, rfl⟩ :=
    step_skip_cases h
  · exact ⟨fun _ => hphase ▸ nofun, nofun⟩
  · exact ⟨fun _ => hphase ▸ nofun, nofun⟩
  · refine ⟨fun _ => hphase ▸ nofun, fun _ => ?_⟩
    dsimp only
    split <;> exact nofun

/-- A line that is passed over was decided on. -/
theorem decides_of_step_skip (h : body.step buffer = .skip next rest) : body.Decides buffer := by
  refine Classical.byContradiction fun hdecides => ?_
  obtain hstep | ⟨-, -, -, hstep⟩ := step_of_not_decides (isChunked_of_step_skip h).1 hdecides
  · cases h.symm.trans hstep
  · cases h.symm.trans hstep

theorem isChunked_of_step_chunk (hchunked : body.IsChunked)
    (h : body.step buffer = .chunk octets next rest) : next.IsChunked := by
  obtain ⟨remaining, hphase, -⟩ | ⟨size, -, -, -, -, -, rfl⟩ := step_chunk_cases h
  · exact absurd hphase (hchunked remaining)
  · exact nofun

/-- A line that is there is not waited for. -/
theorem step_ne_wait_of_line {stop : Nat} (hline : body.phase.readsLine)
    (h : Bytes.findCrlf? buffer = some stop) : body.step buffer ≠ .wait := by
  rw [step]
  cases hphase : body.phase with
  | sizeLine =>
    dsimp only
    split
    · exact nofun
    · rename_i hnone
      exact absurd hnone (parse_append h []).2
    · repeat' split
      all_goals exact nofun
  | trailers =>
    dsimp only
    rw [h]
    cases stop <;> exact nofun
  | length | data | done =>
    rw [hphase] at hline
    cases hline

/-- A look that waits finds the beginning of a line that is not too long, or of a chunk. -/
theorem step_wait_cases (hchunked : body.IsChunked) (h : body.step buffer = .wait) :
    body.phase.readsLine ∧ Bytes.findCrlf? buffer = none ∧ buffer.length ≤ maxLineLength ∨
      ∃ size, body.phase = .data size ∧ buffer.length < size + 2 := by
  by_cases hline : body.phase.readsLine
  · have hnone : Bytes.findCrlf? buffer = none :=
      Option.eq_none_iff_forall_ne_some.2 fun _ hstop => step_ne_wait_of_line hline hstop h
    refine .inl ⟨hline, hnone, Nat.le_of_not_lt fun hlt => ?_⟩
    rw [step_of_noLine hline hnone, waitForLine, if_pos hlt] at h
    cases h
  · rw [step] at h
    cases hphase : body.phase with
    | sizeLine | trailers =>
      rw [hphase] at hline
      exact absurd rfl hline
    | length remaining => exact absurd hphase (hchunked remaining)
    | data size =>
      rw [hphase] at h
      refine .inr ⟨size, rfl, Nat.lt_of_not_le fun hle => ?_⟩
      dsimp only at h
      rw [if_neg (Nat.not_lt.2 hle)] at h
      split at h <;> cases h
    | done =>
      rw [hphase] at h
      cases h

/-! ### Reading on -/

theorem advance_of_chunk (h : body.step buffer = .chunk octets next rest) :
    body.advance buffer = ⟨.chunk octets, next, rest⟩ := by
  rw [advance]
  split <;> simp_all

theorem advance_of_skip (h : body.step buffer = .skip next rest) :
    body.advance buffer = next.advance rest := by
  rw [advance]
  split <;> simp_all

theorem advance_of_wait (h : body.step buffer = .wait) :
    body.advance buffer = ⟨.wait, body, buffer⟩ := by
  rw [advance]
  split <;> simp_all

theorem advance_of_done (h : body.step buffer = .done) :
    body.advance buffer = ⟨.complete, body, buffer⟩ := by
  rw [advance]
  split <;> simp_all

theorem advance_of_refuse {error : BodyError} (h : body.step buffer = .refuse error) :
    body.advance buffer = ⟨.refused error, body, buffer⟩ := by
  rw [advance]
  split <;> simp_all

/-- A chunk, or the end of a body, is final. -/
theorem advance_append (hchunked : body.IsChunked)
    (h : (body.advance buffer).outcome = .complete ∨
      ∃ octets, (body.advance buffer).outcome = .chunk octets) (more : Bytes) :
    body.advance (buffer ++ more) = (body.advance buffer).append more := by
  fun_induction advance body buffer with
  | case1 body buffer octets next rest hstep =>
    refine advance_of_chunk ?_
    rw [step_append (decides_of_step_chunk hchunked hstep), hstep]
    rfl
  | case2 body buffer next rest hstep ih =>
    rw [← ih (isChunked_of_step_skip hstep).2 h]
    refine advance_of_skip ?_
    rw [step_append (decides_of_step_skip hstep), hstep]
    rfl
  | case3 | case5 => simp at h
  | case4 body buffer hstep =>
    have hdecides : body.Decides buffer := by
      rw [Decides, phase_of_step_done hstep]
      trivial
    refine advance_of_done ?_
    rw [step_append hdecides, hstep]
    rfl

/-- Where reading comes to a stop without a chunk, it goes on with the octets that arrive. -/
theorem advance_append_of_stop (h : ∀ octets, (body.advance buffer).outcome ≠ .chunk octets)
    (more : Bytes) :
    body.advance (buffer ++ more) =
      (body.advance buffer).body.advance ((body.advance buffer).rest ++ more) := by
  fun_induction advance body buffer with
  | case1 body buffer octets next rest hstep => exact absurd rfl (h octets)
  | case2 body buffer next rest hstep ih =>
    rw [← ih h]
    refine advance_of_skip ?_
    rw [step_append (decides_of_step_skip hstep), hstep]
    rfl
  | case3 | case4 | case5 => rfl

/-- Where reading comes to a stop without a chunk, it stays. -/
theorem advance_advance (h : ∀ octets, (body.advance buffer).outcome ≠ .chunk octets) :
    (body.advance buffer).body.advance (body.advance buffer).rest = body.advance buffer := by
  have hmore := advance_append_of_stop h []
  rwa [List.append_nil, List.append_nil, eq_comm] at hmore

/-- The look at which reading comes to a stop. -/
theorem step_advance (h : ∀ octets, (body.advance buffer).outcome ≠ .chunk octets) :
    (body.advance buffer).body.step (body.advance buffer).rest =
      match (body.advance buffer).outcome with
      | .complete => .done
      | .refused error => .refuse error
      | _ => .wait := by
  fun_induction advance body buffer with
  | case1 body buffer octets next rest hstep => exact absurd rfl (h octets)
  | case2 body buffer next rest hstep ih => exact ih h
  | case3 body buffer hstep | case4 body buffer hstep | case5 body buffer error hstep => exact hstep

/-- A chunked body stays one. -/
theorem isChunked_advance (hchunked : body.IsChunked) : (body.advance buffer).body.IsChunked := by
  fun_induction advance body buffer with
  | case1 body buffer octets next rest hstep => exact isChunked_of_step_chunk hchunked hstep
  | case2 body buffer next rest hstep ih => exact ih (isChunked_of_step_skip hstep).2
  | case3 | case4 | case5 => exact hchunked

end Body

end HttpEcho
