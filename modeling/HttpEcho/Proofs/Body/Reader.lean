import HttpEcho.Body.Reader

/-!
# Reading bodies

What one look at a buffer can give: octets are passed over only at the end of a line
(`Body.step_skip_cases`), and a chunk is either what is at hand of a body of known length or a whole
chunk with its line end (`Body.step_chunk_cases`). What is left is always the end of the buffer, so
that a body takes up octets from the front of what arrives (`Body.Takes`).
-/

namespace HttpEcho

/-- The error says what is wrong with a body, and not what stopped the reading of it. -/
def BodyError.isRefusal : BodyError → Bool
  | .malformed _ | .tooLarge _ => true
  | .io _ | .unexpectedEof => false

/-- A size line that is wrong refuses the body. -/
theorem SizeLine.isRefusal_of_parse {buffer : Bytes} {error : BodyError}
    (h : SizeLine.parse buffer = .error error) : error.isRefusal := by
  unfold SizeLine.parse at h
  split at h
  · cases h
  · dsimp only at h
    split at h <;> cases h
    rfl

namespace Body

variable {body next : Body} {buffer rest octets : Bytes}

/-- Octets are passed over at the end of a size line or of a trailer line. -/
theorem step_skip_cases (h : body.step buffer = .skip next rest) :
    (∃ line, body.phase = .sizeLine ∧ SizeLine.parse buffer = .ok (some line) ∧
      rest = buffer.drop line.width ∧
        (line.size = 0 ∧ next = { body with phase := .trailers } ∨
          line.size ≠ 0 ∧ body.received + line.size ≤ body.limit ∧
            next = { body with phase := .data line.size })) ∨
    ∃ stop, body.phase = .trailers ∧ Bytes.findCrlf? buffer = some stop ∧
      rest = buffer.drop (stop + 2) ∧
        next = { body with phase := if stop = 0 then .done else .trailers } := by
  -- of the phases, only those that read a line pass over octets
  unfold step at h
  split at h
  case h_1 => cases h
  case h_2 remaining _ =>
    dsimp only at h
    split at h
    · cases h
    split at h <;> cases h
  case h_3 hphase =>
    split at h
    · cases h
    · exact absurd h waitForLine_ne_skip
    rename_i line hline
    refine .inl ⟨line, hphase, hline, ?_⟩
    split at h
    case isTrue hzero =>
      cases h
      exact ⟨rfl, .inl ⟨hzero, rfl⟩⟩
    case isFalse hzero =>
      split at h
      · cases h
      · rename_i hlimit
        cases h
        exact ⟨rfl, .inr ⟨hzero, Nat.le_of_not_lt hlimit, rfl⟩⟩
  case h_4 size _ =>
    split at h
    · cases h
    split at h <;> cases h
  case h_5 hphase =>
    split at h
    case h_1 => exact absurd h waitForLine_ne_skip
    case h_2 hstop =>
      cases h
      exact .inr ⟨0, hphase, hstop, rfl, rfl⟩
    case h_3 stop hne hstop =>
      cases h
      refine .inr ⟨stop, hphase, hstop, rfl, ?_⟩
      rw [if_neg hne, ← hphase]

/-- A chunk is what is at hand of a body of known length, or a whole chunk of a chunked body. -/
theorem step_chunk_cases (h : body.step buffer = .chunk octets next rest) :
    (∃ remaining, body.phase = .length remaining ∧ body.received + remaining ≤ body.limit ∧
      buffer ≠ [] ∧ octets = buffer.take remaining ∧ rest = buffer.drop remaining ∧
        next = { body with
          phase := if remaining ≤ buffer.length then .done else .length (remaining - buffer.length)
          received := body.received + octets.length }) ∨
    ∃ size, body.phase = .data size ∧ size + 2 ≤ buffer.length ∧
      (buffer.drop size).take 2 = Bytes.crlf ∧ octets = buffer.take size ∧
        rest = buffer.drop (size + 2) ∧
          next = { body with phase := .sizeLine, received := body.received + size } := by
  unfold step at h
  split at h
  case h_1 => cases h
  case h_2 remaining hphase =>
    dsimp only at h
    split at h
    · cases h
    rename_i hlimit
    split at h
    · cases h
    rename_i hempty
    refine .inl ⟨remaining, hphase, Nat.le_of_not_lt hlimit, ?_, ?_⟩
    · intro hnil
      exact hempty (hnil ▸ rfl)
    -- taking stops at the end of the buffer by itself
    have htake : buffer.take (min remaining buffer.length) = buffer.take remaining := by
      rw [List.take_eq_take_iff]
      omega
    have hdrop : buffer.drop (min remaining buffer.length) = buffer.drop remaining := by
      rcases Nat.le_total remaining buffer.length with hle | hle
      · rw [Nat.min_eq_left hle]
      · rw [Nat.min_eq_right hle, List.drop_eq_nil_of_le hle, List.drop_length]
    rw [htake, hdrop] at h
    cases h
    refine ⟨rfl, rfl, ?_⟩
    rw [List.length_take]
    by_cases hle : remaining ≤ buffer.length
    · rw [if_pos hle, if_pos (Nat.min_eq_left hle).symm]
    · rw [if_neg hle, if_neg (by omega), Nat.min_eq_right (by omega)]
  case h_3 =>
    split at h
    · cases h
    · exact absurd h waitForLine_ne_chunk
    split at h
    · cases h
    split at h <;> cases h
  case h_4 size hphase =>
    split at h
    · cases h
    rename_i hlength
    split at h
    · rename_i hcrlf
      cases h
      exact .inr ⟨size, hphase, Nat.le_of_not_lt hlength, hcrlf, rfl, rfl, rfl⟩
    · cases h
  case h_5 =>
    split at h
    · exact absurd h waitForLine_ne_chunk
    all_goals cases h

theorem rest_suffix_of_skip (h : body.step buffer = .skip next rest) : rest <:+ buffer := by
  obtain ⟨line, -, -, hrest, -⟩ | ⟨stop, -, -, hrest, -⟩ := step_skip_cases h
  · exact hrest ▸ List.drop_suffix _ _
  · exact hrest ▸ List.drop_suffix _ _

theorem rest_suffix_of_chunk (h : body.step buffer = .chunk octets next rest) :
    rest <:+ buffer := by
  obtain ⟨remaining, -, -, -, -, hrest, -⟩ | ⟨size, -, -, -, -, hrest, -⟩ := step_chunk_cases h
  · exact hrest ▸ List.drop_suffix _ _
  · exact hrest ▸ List.drop_suffix _ _

theorem phase_of_step_done (h : body.step buffer = .done) : body.phase = .done := by
  unfold step at h
  split at h
  case h_1 hphase => exact hphase
  case h_2 =>
    dsimp only at h
    repeat' split at h
    all_goals cases h
  case h_3 | h_5 =>
    unfold waitForLine at h
    repeat' split at h
    all_goals cases h
  case h_4 =>
    repeat' split at h
    all_goals cases h

/-! ### What a body takes up -/

/-- A body takes up octets and is then read up to `last`: at each look it takes up what is no longer
in the buffer after it. -/
inductive Takes : Body → Bytes → Body → Prop
  | nil {body : Body} : Takes body [] body
  | skip {body next last : Body} {used rest text : Bytes} :
      body.step (used ++ rest) = .skip next rest → Takes next text last →
        Takes body (used ++ text) last
  | chunk {body next last : Body} {used rest octets text : Bytes} :
      body.step (used ++ rest) = .chunk octets next rest → Takes next text last →
        Takes body (used ++ text) last

theorem Takes.trans {middle last : Body} {text text' : Bytes} (h : body.Takes text middle)
    (h' : middle.Takes text' last) : body.Takes (text ++ text') last := by
  induction h with
  | nil => exact h'
  | skip hstep _ ih =>
    rw [List.append_assoc]
    exact .skip hstep (ih h')
  | chunk hstep _ ih =>
    rw [List.append_assoc]
    exact .chunk hstep (ih h')

/-- What reading on leaves is the end of what was there, and the rest of it was taken up. -/
theorem takes_advance (body : Body) (buffer : Bytes) :
    ∃ used, used ++ (body.advance buffer).rest = buffer ∧
      body.Takes used (body.advance buffer).body := by
  fun_induction advance body buffer with
  | case1 body buffer octets next rest h =>
    obtain ⟨used, rfl⟩ := rest_suffix_of_chunk h
    refine ⟨used, rfl, ?_⟩
    rw [← List.append_nil used]
    exact .chunk h .nil
  | case2 body buffer next rest h ih =>
    obtain ⟨used, rfl⟩ := rest_suffix_of_skip h
    obtain ⟨used', hrest, htakes⟩ := ih
    refine ⟨used ++ used', ?_, .skip h htakes⟩
    rw [List.append_assoc, hrest]
  | case3 | case4 | case5 => exact ⟨[], rfl, .nil⟩

theorem phase_of_advance_complete (h : (body.advance buffer).outcome = .complete) :
    (body.advance buffer).body.phase = .done := by
  fun_induction advance body buffer with
  | case1 => cases h
  | case2 body buffer next rest hstep ih => exact ih h
  | case3 => cases h
  | case4 body buffer hstep => exact phase_of_step_done hstep
  | case5 => cases h

/-! ### Refusals -/

/-- A body is refused for what it is, and not for what the peer does. -/
theorem isRefusal_of_step {error : BodyError} (h : body.step buffer = .refuse error) :
    error.isRefusal := by
  have hwait : ∀ {text}, waitForLine buffer text = .refuse error → error.isRefusal := by
    intro text hwait
    rw [waitForLine] at hwait
    split at hwait
    · cases hwait
      rfl
    · cases hwait
  unfold step at h
  split at h
  case h_1 => cases h
  case h_2 =>
    dsimp only at h
    repeat' split at h
    all_goals
      cases h
      try rfl
  case h_3 =>
    split at h
    case h_1 error' hparse =>
      cases h
      exact SizeLine.isRefusal_of_parse hparse
    case h_2 => exact hwait h
    case h_3 =>
      repeat' split at h
      all_goals
        cases h
        try rfl
  case h_4 =>
    repeat' split at h
    all_goals
      cases h
      try rfl
  case h_5 =>
    split at h
    case h_1 => exact hwait h
    all_goals cases h

/-- An error to which the buffer leads refuses the body. -/
theorem isRefusal_of_advance {error : BodyError}
    (h : (body.advance buffer).outcome = .refused error) :
    error.isRefusal := by
  fun_induction advance body buffer with
  | case2 body buffer next rest hstep ih => exact ih h
  | case5 body buffer error' hstep =>
    cases h
    exact isRefusal_of_step hstep
  | case1 | case3 | case4 => cases h

end Body

end HttpEcho
