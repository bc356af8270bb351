import HttpEcho.Proofs.Body.Growth

/-!
# Lines that arrive in parts

The length of a line counts only while its end is not at hand. So a text that arrives in parts is
not always read as it is when all of it is there: where a part stops inside a line of which more is
at hand than is waited for (`StopsInLine`), the line is refused although its end would have come.
The lines of a text are those that reading it at once comes to look for (`Body.Meets`), and
`Body.CutsLine` says that one of them is stopped in.

Both are kept by reading on. Where no line is cut, whatever is reported is final
(`Body.advance_append_of_not_cutsLine`); where one is cut, it is still cut after a chunk
(`Body.CutsLine.advance`) or after a wait (`Body.CutsLine.of_wait`), up to the refusal
(`Body.CutsLine.of_refuse`).
-/

namespace HttpEcho

/-- While this many octets are still to come, more of a line is at hand than is waited for, and the
end of the line is not. -/
def StopsInLine (line : Bytes) (toCome : Nat) : Prop :=
  toCome + maxLineLength < line.length ∧
    ∃ stop, Bytes.findCrlf? line = some stop ∧ line.length < stop + 2 + toCome

namespace Body

/-- Reading the octets at once comes to look for a line, and the octets are those from there on. -/
inductive Meets : Body → Bytes → Bytes → Prop
  | here {body : Body} {text : Bytes} : body.phase.readsLine → Meets body text text
  | skip {body next : Body} {text rest line : Bytes} :
      body.step text = .skip next rest → Meets next rest line → Meets body text line
  | chunk {body next : Body} {text octets rest line : Bytes} :
      body.step text = .chunk octets next rest → Meets next rest line → Meets body text line

/-- All lines that reading the text at once comes to are shorter than what is waited for. -/
def ShortLines (body : Body) (text : Bytes) : Prop :=
  ∀ line stop, body.Meets text line → Bytes.findCrlf? line = some stop → stop < maxLineLength

/-- Of a text that arrives in parts on top of what is at hand, some part stops inside a line. -/
def CutsLine (body : Body) (buffer : Bytes) (parts : List Bytes) : Prop :=
  ∃ line after, body.Meets (buffer ++ parts.flatten) line ∧ after <:+ parts ∧
    StopsInLine line after.flatten.length

variable {body next : Body} {buffer rest octets text line more : Bytes} {parts : List Bytes}

/-! ### The lines that are met -/

theorem Meets.length_le (h : body.Meets text line) : line.length ≤ text.length := by
  induction h with
  | here => exact Nat.le_refl _
  | skip hstep _ ih => exact Nat.le_trans ih (rest_suffix_of_skip hstep).length_le
  | chunk hstep _ ih => exact Nat.le_trans ih (rest_suffix_of_chunk hstep).length_le

/-- A line that ends within what is at hand is not stopped in. -/
theorem not_stopsInLine {stop toCome : Nat} (h : Bytes.findCrlf? line = some stop)
    (hle : toCome ≤ more.length) : ¬ StopsInLine (line ++ more) toCome := by
  rintro ⟨-, stop', hstop', hlt⟩
  have hmore : Bytes.findCrlf? (line ++ more) = some stop := Bytes.search_append h more
  obtain rfl : stop = stop' := Option.some.inj (hmore.symm.trans hstop')
  have := Bytes.findCrlf?_le h
  rw [List.length_append] at hlt
  omega

/-- What is met after reading on was met before. -/
theorem Meets.of_advance (hchunked : body.IsChunked)
    (h : (body.advance buffer).body.Meets ((body.advance buffer).rest ++ more) line) :
    body.Meets (buffer ++ more) line := by
  fun_induction advance body buffer with
  | case1 body buffer octets next rest hstep =>
    have hmore : body.step (buffer ++ more) = .chunk octets next (rest ++ more) := by
      rw [step_append (decides_of_step_chunk hchunked hstep), hstep]
      rfl
    exact .chunk hmore h
  | case2 body buffer next rest hstep ih =>
    refine .skip ?_ (ih (isChunked_of_step_skip hstep).2 h)
    rw [step_append (decides_of_step_skip hstep), hstep]
    rfl
  | case3 | case4 | case5 => exact h

/-- Passing over octets takes a line whose end is there. -/
theorem Meets.of_skip (hstep : body.step buffer = .skip next rest)
    (h : body.Meets (buffer ++ more) line) :
    (∃ stop, line = buffer ++ more ∧ Bytes.findCrlf? buffer = some stop) ∨
      next.Meets (rest ++ more) line := by
  have hmore : body.step (buffer ++ more) = .skip next (rest ++ more) := by
    rw [step_append (decides_of_step_skip hstep), hstep]
    rfl
  cases h with
  | here =>
    obtain ⟨stop, hstop, -⟩ := line_of_step_skip hstep
    exact .inl ⟨stop, rfl, hstop⟩
  | skip hskip hmeets =>
    cases hmore.symm.trans hskip
    exact .inr hmeets
  | chunk hchunk => cases hmore.symm.trans hchunk

/-- Delivering a chunk meets no line. -/
theorem Meets.of_chunk (hchunked : body.IsChunked)
    (hstep : body.step buffer = .chunk octets next rest) (h : body.Meets (buffer ++ more) line) :
    next.Meets (rest ++ more) line := by
  have hmore : body.step (buffer ++ more) = .chunk octets next (rest ++ more) := by
    rw [step_append (decides_of_step_chunk hchunked hstep), hstep]
    rfl
  cases h with
  | here hline =>
    obtain ⟨_, hphase, -⟩ | ⟨_, hphase, -⟩ := step_chunk_cases hstep
    all_goals
      rw [hphase] at hline
      cases hline
  | skip hskip => cases hmore.symm.trans hskip
  | chunk hchunk hmeets =>
    cases hmore.symm.trans hchunk
    exact hmeets

/-- A line that is met is at hand to its end, or is met after reading on. -/
theorem Meets.advance (hchunked : body.IsChunked) (h : body.Meets (buffer ++ more) line) :
    (∃ front stop, line = front ++ more ∧ Bytes.findCrlf? front = some stop) ∨
      (body.advance buffer).body.Meets ((body.advance buffer).rest ++ more) line := by
  fun_induction Body.advance body buffer with
  | case1 body buffer octets next rest hstep => exact .inr (h.of_chunk hchunked hstep)
  | case2 body buffer next rest hstep ih =>
    obtain ⟨stop, hline, hstop⟩ | hmeets := h.of_skip hstep
    · exact .inl ⟨buffer, stop, hline, hstop⟩
    · exact ih (isChunked_of_step_skip hstep).2 hmeets
  | case3 | case4 | case5 => exact .inr h

/-- While nothing can be said, a line that will be met has few octets at hand, if any. -/
theorem Meets.length_le_of_wait (hchunked : body.IsChunked) (hstep : body.step buffer = .wait)
    (h : body.Meets (buffer ++ more) line) : line.length ≤ maxLineLength + more.length := by
  have hlength : (buffer ++ more).length = buffer.length + more.length := List.length_append
  obtain ⟨hline, hnone, hle⟩ | ⟨size, hphase, hlt⟩ := step_wait_cases hchunked hstep
  · cases h with
    | here => omega
    | skip hskip hmeets =>
      -- the end of the line that is taken is not at hand
      obtain ⟨stop, hstop, rfl⟩ := line_of_step_skip hskip
      have hlt : buffer.length < stop + 2 := Bytes.length_lt_of_search_append hnone hstop
      have := hmeets.length_le
      rw [List.length_drop] at this
      omega
    | chunk hchunk =>
      obtain ⟨_, hphase, -⟩ | ⟨_, hphase, -⟩ := step_chunk_cases hchunk
      all_goals
        rw [hphase] at hline
        cases hline
  · cases h with
    | here hline =>
      rw [hphase] at hline
      cases hline
    | skip hskip =>
      obtain ⟨_, hphase', -⟩ | ⟨_, hphase', -⟩ := step_skip_cases hskip
      all_goals cases hphase.symm.trans hphase'
    | chunk hchunk hmeets =>
      obtain ⟨_, hphase', -⟩ | ⟨size', hphase', -, -, -, rfl, -⟩ := step_chunk_cases hchunk
      · cases hphase.symm.trans hphase'
      · cases hphase.symm.trans hphase'
        have := hmeets.length_le
        rw [List.length_drop] at this
        omega

/-- A complete body meets no line. -/
theorem not_meets_of_done (hphase : body.phase = .done) : ¬ body.Meets text line := by
  intro h
  cases h with
  | here hline =>
    rw [hphase] at hline
    cases hline
  | skip hskip =>
    obtain ⟨_, hphase', -⟩ | ⟨_, hphase', -⟩ := step_skip_cases hskip
    all_goals cases hphase.symm.trans hphase'
  | chunk hchunk =>
    obtain ⟨_, hphase', -⟩ | ⟨_, hphase', -⟩ := step_chunk_cases hchunk
    all_goals cases hphase.symm.trans hphase'

/-! ### Short lines -/

theorem shortLines_of_done (hphase : body.phase = .done) (text : Bytes) : body.ShortLines text :=
  fun _ _ hmeets => absurd hmeets (not_meets_of_done hphase)

theorem shortLines_of_skip {stop : Nat} (hstop : Bytes.findCrlf? text = some stop)
    (hlt : stop < maxLineLength) (hstep : body.step text = .skip next rest)
    (h : next.ShortLines rest) : body.ShortLines text := by
  intro line stop' hmeets hstop'
  cases hmeets with
  | here => exact Option.some.inj (hstop.symm.trans hstop') ▸ hlt
  | skip hskip hmeets =>
    cases hstep.symm.trans hskip
    exact h line stop' hmeets hstop'
  | chunk hchunk => cases hstep.symm.trans hchunk

theorem shortLines_of_refuse {stop : Nat} {error : BodyError}
    (hstop : Bytes.findCrlf? text = some stop) (hlt : stop < maxLineLength)
    (hstep : body.step text = .refuse error) : body.ShortLines text := by
  intro line stop' hmeets hstop'
  cases hmeets with
  | here => exact Option.some.inj (hstop.symm.trans hstop') ▸ hlt
  | skip hskip => cases hstep.symm.trans hskip
  | chunk hchunk => cases hstep.symm.trans hchunk

theorem shortLines_of_chunk (hchunked : body.IsChunked)
    (hstep : body.step text = .chunk octets next rest) (h : next.ShortLines rest) :
    body.ShortLines text := by
  intro line stop hmeets hstop
  rw [← List.append_nil text] at hmeets
  have hnext := hmeets.of_chunk hchunked hstep
  rw [List.append_nil] at hnext
  exact h line stop hnext hstop

/-! ### Cuts -/

/-- Parts that will still arrive are no more than all of them. -/
theorem length_flatten_le_of_suffix {after : List Bytes} (h : after <:+ parts) :
    after.flatten.length ≤ parts.flatten.length := by
  obtain ⟨before, rfl⟩ := h
  rw [List.flatten_append, List.length_append]
  exact Nat.le_add_left _ _

/-- A line that is cut is cut after reading on. -/
theorem CutsLine.advance (hchunked : body.IsChunked) (h : body.CutsLine buffer parts) :
    (body.advance buffer).body.CutsLine (body.advance buffer).rest parts := by
  obtain ⟨line, after, hmeets, hafter, hstops⟩ := h
  obtain ⟨front, stop, rfl, hstop⟩ | hmeets := hmeets.advance hchunked
  · exact absurd hstops (not_stopsInLine hstop (length_flatten_le_of_suffix hafter))
  · exact ⟨line, after, hmeets, hafter, hstops⟩

/-- While nothing can be said, the line is cut by a part that is still to come. -/
theorem CutsLine.of_wait {before after : List Bytes} {part : Bytes} (hchunked : body.IsChunked)
    (hstep : body.step buffer = .wait) (hbefore : before.flatten = [])
    (h : body.CutsLine buffer (before ++ part :: after)) :
    body.CutsLine (buffer ++ part) after := by
  obtain ⟨line, last, hmeets, hlast, hstops⟩ := h
  have hflatten : (before ++ part :: after).flatten = part ++ after.flatten := by
    rw [List.flatten_append, hbefore, List.nil_append, List.flatten_cons]
  have hle := hmeets.length_le_of_wait hchunked hstep
  rw [hflatten] at hmeets hle
  rw [← List.append_assoc] at hmeets
  refine ⟨line, last, hmeets, ?_, hstops⟩
  have hafter : part :: after <:+ before ++ part :: after := List.suffix_append _ _
  -- otherwise all the parts would be among those that are to come
  refine Classical.byContradiction fun hnot => ?_
  have hsuffix : part :: after <:+ last := by
    refine List.suffix_of_suffix_length_le hafter hlast (Nat.lt_of_not_le fun hlength => hnot ?_)
    refine List.suffix_of_suffix_length_le hlast ?_ hlength
    exact (List.suffix_cons part after).trans hafter
  have := length_flatten_le_of_suffix hsuffix
  have := hstops.1
  rw [List.flatten_cons] at *
  omega

/-- Where a line is cut, what is refused is a line that is too long. -/
theorem CutsLine.of_refuse {error : BodyError} (hchunked : body.IsChunked)
    (hstep : body.step buffer = .refuse error) (h : body.CutsLine buffer parts) :
    error = .malformed (.invalidChunk body.phase.tooLong) := by
  by_cases hdecides : body.Decides buffer
  · obtain ⟨line, after, hmeets, hafter, hstops⟩ := h
    have hmore : body.step (buffer ++ parts.flatten) = .refuse error := by
      rw [step_append hdecides, hstep]
      rfl
    cases hmeets with
    | here hline =>
      obtain ⟨stop, hstop⟩ := (decides_iff_of_readsLine hline).1 hdecides
      exact absurd hstops (not_stopsInLine hstop (length_flatten_le_of_suffix hafter))
    | skip hskip => cases hmore.symm.trans hskip
    | chunk hchunk => cases hmore.symm.trans hchunk
  · obtain hwait | ⟨-, -, -, htooLong⟩ := step_of_not_decides hchunked hdecides
    · cases hstep.symm.trans hwait
    · exact Step.refuse.inj (hstep.symm.trans htooLong)

/-- Only a line that is longer than what is waited for is stopped in. -/
theorem le_of_stopsInLine {stop toCome : Nat} (h : StopsInLine line toCome)
    (hstop : Bytes.findCrlf? line = some stop) : maxLineLength ≤ stop := by
  obtain ⟨hlong, stop', hstop', hlt⟩ := h
  cases hstop.symm.trans hstop'
  omega

/-- Short lines are never cut. -/
theorem not_cutsLine_of_shortLines (h : body.ShortLines (buffer ++ parts.flatten)) :
    ¬ body.CutsLine buffer parts := by
  rintro ⟨line, after, hmeets, -, hstops⟩
  obtain ⟨stop, hstop, -⟩ := hstops.2
  have := h line stop hmeets hstop
  have := le_of_stopsInLine hstops hstop
  omega

/-- A text that is at hand is not cut. -/
theorem not_cutsLine_nil (body : Body) (text : Bytes) : ¬ body.CutsLine text [] := by
  rintro ⟨line, after, -, hafter, -, stop, hstop, hlt⟩
  have := Bytes.findCrlf?_le hstop
  rw [List.suffix_nil.1 hafter, List.flatten_nil, List.length_nil] at hlt
  omega

/-- Octets that arrive one by one cut every line that is longer than what is waited for. -/
theorem cutsLine_singletons (body : Body) (text : Bytes) :
    body.CutsLine [] (text.map fun b => [b]) ↔
      ∃ line stop, body.Meets text line ∧ Bytes.findCrlf? line = some stop ∧
        maxLineLength ≤ stop := by
  have hflatten : ∀ text : Bytes, (text.map fun b => [b]).flatten = text := fun text => by
    rw [← List.flatMap_def, List.flatMap_singleton']
  unfold CutsLine
  rw [hflatten, List.nil_append]
  constructor
  · rintro ⟨line, after, hmeets, -, hstops⟩
    obtain ⟨stop, hstop, -⟩ := hstops.2
    exact ⟨line, stop, hmeets, hstop, le_of_stopsInLine hstops hstop⟩
  · rintro ⟨line, stop, hmeets, hstop, hle⟩
    -- the octet after those that are waited for, and all that come after it
    obtain ⟨after, hafter, hlength⟩ : ∃ after, after <:+ text ∧
        after.length = line.length - (maxLineLength + 1) := by
      refine ⟨text.drop (text.length - (line.length - (maxLineLength + 1))),
        List.drop_suffix _ _, ?_⟩
      have := hmeets.length_le
      rw [List.length_drop]
      omega
    have := Bytes.findCrlf?_le hstop
    refine ⟨line, after.map fun b => [b], hmeets, hafter.map _, ?_, stop, hstop, ?_⟩
    all_goals
      rw [hflatten, hlength]
      omega

/-! ### Reading on where no line is cut -/

/-- What is refused stays refused, unless it is a line that is stopped in. -/
theorem step_append_of_refuse {error : BodyError} (hchunked : body.IsChunked)
    (hstep : body.step buffer = .refuse error)
    (h : body.phase.readsLine → ¬ StopsInLine (buffer ++ more) more.length) :
    body.step (buffer ++ more) = .refuse error := by
  by_cases hdecides : body.Decides buffer
  · rw [step_append hdecides, hstep]
    rfl
  obtain hwait | ⟨hline, hnone, hlt, htooLong⟩ := step_of_not_decides hchunked hdecides
  · cases hstep.symm.trans hwait
  have hlength : (buffer ++ more).length = buffer.length + more.length := List.length_append
  -- the line is too long with more octets too, for its end is not among them
  have hnone' : Bytes.findCrlf? (buffer ++ more) = none := by
    refine Option.eq_none_iff_forall_ne_some.2 fun stop hstop => h hline ⟨by omega, stop, hstop, ?_⟩
    have : buffer.length < stop + 2 := Bytes.length_lt_of_search_append hnone hstop
    omega
  rw [step_of_noLine hline hnone', waitForLine, if_pos (by omega)]
  exact htooLong.symm.trans hstep

/-- Parts that cut no line do not cut one after reading on, whichever of them have arrived. -/
theorem not_cutsLine_advance (before after : List Bytes) (hchunked : body.IsChunked)
    (h : ¬ body.CutsLine buffer (before ++ after)) :
    ¬ (body.advance buffer).body.CutsLine ((body.advance buffer).rest ++ before.flatten) after := by
  rintro ⟨line, last, hmeets, hlast, hstops⟩
  refine h ⟨line, last, .of_advance hchunked ?_, hlast.trans (List.suffix_append _ _), hstops⟩
  rwa [List.flatten_append, ← List.append_assoc]

/-- **Where no line is cut, whatever is reported is final.** -/
theorem advance_append_of_not_cutsLine (hchunked : body.IsChunked)
    (h : ¬ body.CutsLine buffer parts) (hwait : (body.advance buffer).outcome ≠ .wait) :
    body.advance (buffer ++ parts.flatten) = (body.advance buffer).append parts.flatten := by
  cases houtcome : (body.advance buffer).outcome with
  | chunk octets => exact advance_append hchunked (.inr ⟨octets, houtcome⟩) _
  | complete => exact advance_append hchunked (.inl houtcome) _
  | wait => exact absurd houtcome hwait
  | refused error =>
    have hstop : ∀ octets, (body.advance buffer).outcome ≠ .chunk octets :=
      fun octets hchunk => nomatch houtcome.symm.trans hchunk
    have hstep := step_advance hstop
    rw [houtcome] at hstep
    rw [advance_append_of_stop hstop, advance_of_refuse, Advance.append, houtcome]
    refine step_append_of_refuse (isChunked_advance hchunked) hstep fun hline hstops => h ?_
    exact ⟨_, parts, .of_advance hchunked (.here hline), List.suffix_refl _, hstops⟩

end Body

end HttpEcho
