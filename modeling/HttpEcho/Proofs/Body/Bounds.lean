import HttpEcho.Proofs.Body.Growth
import HttpEcho.Session

/-!
# Bounds of bodies

A body that is within its limit stays so (`Body.Within`): what it delivers is counted, and a chunk
is waited for only if it fits. So more octets are asked for only while few are at hand
(`Body.Within.length_le_of_wait`), and all chunks that are ever delivered are within the limit
together (`Session.Source.sum_calls_le`).
-/

namespace HttpEcho

/-- The most octets that are at hand when more of a body are asked for. -/
def maxBodyBuffer (limit : Nat) : Nat := max maxLineLength (limit + 1)

namespace Body

variable {body next : Body} {buffer rest octets : Bytes}

/-- What was delivered is within the limit, together with the chunk that comes next. -/
structure Within (body : Body) : Prop where
  received_le : body.received ≤ body.limit
  data_le : ∀ size, body.phase = .data size → body.received + size ≤ body.limit

theorem within_ofFraming (framing : Framing) (limit : Nat) : (ofFraming framing limit).Within := by
  refine ⟨Nat.zero_le _, fun size hphase => ?_⟩
  cases framing <;> cases hphase

/-- A body after some octets were delivered: it is within the same limit, and has counted them. -/
structure Goes (body : Body) (delivered : Nat) (next : Body) : Prop where
  within : next.Within
  limit_eq : next.limit = body.limit
  received_eq : next.received = body.received + delivered

theorem Within.goes (h : body.Within) : body.Goes 0 body := ⟨h, rfl, rfl⟩

theorem Goes.trans {last : Body} {m n : Nat} (h : body.Goes m next) (h' : next.Goes n last) :
    body.Goes (m + n) last :=
  ⟨h'.within, h'.limit_eq.trans h.limit_eq, by rw [h'.received_eq, h.received_eq, Nat.add_assoc]⟩

/-! ### One look -/

/-- Passing over a line delivers nothing. -/
theorem Within.goes_skip (h : body.Within) (hstep : body.step buffer = .skip next rest) :
    body.Goes 0 next := by
  obtain ⟨line, -, -, -, ⟨-, rfl⟩ | ⟨-, hfits, rfl⟩⟩ | ⟨stop, -, -, -, rfl⟩ := step_skip_cases hstep
  · exact ⟨⟨h.received_le, nofun⟩, rfl, rfl⟩
  · refine ⟨⟨h.received_le, fun size hphase => ?_⟩, rfl, rfl⟩
    cases hphase
    exact hfits
  · refine ⟨⟨h.received_le, fun size hphase => ?_⟩, rfl, rfl⟩
    split at hphase <;> cases hphase

/-- A chunk counts for its octets. -/
theorem Within.goes_chunk (h : body.Within) (hstep : body.step buffer = .chunk octets next rest) :
    body.Goes octets.length next := by
  obtain ⟨remaining, -, hfits, -, rfl, -, rfl⟩ | ⟨size, hphase, hsize, -, rfl, -, rfl⟩ :=
    step_chunk_cases hstep
  · have hle : (buffer.take remaining).length ≤ remaining := List.length_take_le _ _
    refine ⟨⟨by dsimp only; omega, fun size hphase => ?_⟩, rfl, rfl⟩
    dsimp only at hphase
    split at hphase <;> cases hphase
  · have hlength : (buffer.take size).length = size := List.length_take_of_le (by omega)
    rw [hlength]
    exact ⟨⟨h.data_le size hphase, nofun⟩, rfl, rfl⟩

/-- More octets are asked for only while few are at hand. -/
theorem Within.length_le_of_wait (h : body.Within) (hstep : body.step buffer = .wait) :
    buffer.length ≤ maxBodyBuffer body.limit := by
  by_cases hchunked : body.IsChunked
  · obtain ⟨-, -, hline⟩ | ⟨size, hphase, hdata⟩ := step_wait_cases hchunked hstep
    · exact Nat.le_trans hline (Nat.le_max_left _ _)
    · have hfits := h.data_le size hphase
      exact Nat.le_trans (by omega) (Nat.le_max_right _ _)
  · -- of a body of known length all that is at hand is delivered
    obtain ⟨remaining, hphase⟩ := Classical.not_forall.1 hchunked
    rw [step, Classical.not_not.1 hphase] at hstep
    dsimp only at hstep
    split at hstep
    · cases hstep
    · split at hstep
      case isTrue hempty =>
        rw [List.isEmpty_iff.1 hempty]
        exact Nat.zero_le _
      case isFalse => cases hstep

/-! ### Reading on -/

/-- How many octets are delivered. -/
def Outcome.delivered : Outcome → Nat
  | .chunk octets => octets.length
  | _ => 0

/-- Looking at the buffer delivers at most one chunk, and keeps the body within its limit. -/
theorem Within.goes_advance (h : body.Within) (buffer : Bytes) :
    body.Goes (body.advance buffer).outcome.delivered (body.advance buffer).body := by
  fun_induction advance body buffer with
  | case1 body buffer octets next rest hstep => exact h.goes_chunk hstep
  | case2 body buffer next rest hstep ih =>
    have hskip := h.goes_skip hstep
    have hgoes := hskip.trans (ih hskip.within)
    rwa [Nat.zero_add] at hgoes
  | case3 | case4 | case5 => exact h.goes

theorem Within.length_le_of_advance_wait (h : body.Within)
    (hwait : (body.advance buffer).outcome = .wait) :
    (body.advance buffer).rest.length ≤ maxBodyBuffer body.limit := by
  have hnone : ∀ octets, (body.advance buffer).outcome ≠ .chunk octets := fun octets hchunk =>
    nomatch hwait.symm.trans hchunk
  have hstep := step_advance hnone
  have hgoes := h.goes_advance buffer
  rw [hwait] at hstep
  exact hgoes.limit_eq ▸ hgoes.within.length_le_of_wait hstep

end Body

namespace Session

variable {source : Source}

/-- A call counts the octets that it gives. -/
theorem Source.goes_next (h : source.body.Within) :
    source.body.Goes source.next.octets.length source.next.source.body := by
  fun_induction Source.next source with
  | case1 source a after octets houtcome =>
    have hgoes := h.goes_advance source.buffer
    rwa [houtcome] at hgoes
  | case2 source a after houtcome | case3 source a after error houtcome
  | case5 source a after houtcome r | case6 source a after houtcome r
  | case7 source a after houtcome r =>
    have hgoes := h.goes_advance source.buffer
    rwa [houtcome] at hgoes
  | case4 source a after houtcome r octets hread ih =>
    have hgoes := h.goes_advance source.buffer
    rw [houtcome] at hgoes
    have hrest := hgoes.trans (ih hgoes.within)
    have hwait : Body.Outcome.wait.delivered = 0 := rfl
    rwa [hwait, Nat.zero_add] at hrest

/-- A number of calls for the next chunk, one after the other. -/
def Source.calls : Nat → Source → List Call
  | 0, _ => []
  | n + 1, source => source.next :: calls n source.next.source

/-- What the calls deliver and what was delivered before are within the limit together. -/
theorem Source.sum_calls_add_le (source : Source) (h : source.body.Within) (n : Nat) :
    source.body.received + ((source.calls n).flatMap Call.octets).length ≤ source.body.limit := by
  induction n generalizing source with
  | zero => exact h.received_le
  | succ n ih =>
    have hgoes := source.goes_next h
    have hrest := ih source.next.source hgoes.within
    rw [hgoes.limit_eq, hgoes.received_eq] at hrest
    rw [calls, List.flatMap_cons, List.length_append, ← Nat.add_assoc]
    exact hrest

/-- **All chunks of a body** are within the limit together, however often the next one is asked
for. -/
theorem Source.sum_calls_le (framing : Framing) (limit : Nat) (buffer : Bytes) (peer : Peer)
    (n : Nat) :
    ((Source.calls n ⟨.ofFraming framing limit, buffer, peer⟩).flatMap Call.octets).length ≤
      limit := by
  have hsum := Source.sum_calls_add_le ⟨.ofFraming framing limit, buffer, peer⟩
    (Body.within_ofFraming framing limit) n
  exact Nat.le_trans (Nat.le_add_left _ _) hsum

end Session

end HttpEcho
