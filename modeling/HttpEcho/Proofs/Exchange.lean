import HttpEcho.Exchange
import HttpEcho.Proofs.Body.Reader

/-!
# Feeding an exchange

`Exchange.feed` takes one chunk after the other. Its four equations, one for each outcome of the
body, are what everything about it goes back to.
-/

namespace HttpEcho

namespace Exchange

variable {x : Exchange} {buffer : Bytes}

theorem feed_chunk {octets : Bytes} (h : (x.body.advance buffer).outcome = .chunk octets) :
    x.feed buffer =
      (feed { x with body := (x.body.advance buffer).body, received := octets :: x.received }
        (x.body.advance buffer).rest).after (noticeOfChunk x.head octets) := by
  rw [feed]
  split <;> simp_all

theorem feed_complete (h : (x.body.advance buffer).outcome = .complete) :
    x.feed buffer =
      { notices := (respond x.head x.echo x.maxBodySize x.received.reverse).1
        progress := .answered (respond x.head x.echo x.maxBodySize x.received.reverse).2
        rest := (x.body.advance buffer).rest } := by
  rw [feed]
  split <;> simp_all

theorem feed_wait (h : (x.body.advance buffer).outcome = .wait) :
    x.feed buffer =
      { notices := [], progress := .waiting { x with body := (x.body.advance buffer).body },
        rest := (x.body.advance buffer).rest } := by
  rw [feed]
  split <;> simp_all

theorem feed_refused {error : BodyError} (h : (x.body.advance buffer).outcome = .refused error) :
    x.feed buffer =
      { notices := [], progress := .refused error, rest := (x.body.advance buffer).rest } := by
  rw [feed]
  split <;> simp_all

/-! ### Responses -/

section Echo

variable {head : Head} {limit : Nat} {body : Bytes}

/-- A body that is not declared as gzip, or is empty, is sent back as it is. -/
theorem echoFull_of_plain (h : ¬ head.isGzip ∨ body = []) :
    echoFull head limit body = ([], .ok body) := by
  rw [echoFull, if_neg]
  rw [Bool.and_eq_true, Bool.not_eq_true', List.isEmpty_eq_false_iff]
  exact fun hgzip => h.elim (absurd hgzip.1) hgzip.2

/-- A body that is declared as gzip is sent back decoded. -/
theorem echoFull_of_gzip (h : head.isGzip) (hne : body ≠ []) :
    echoFull head limit body =
      match Gzip.decode limit body with
      | .ok decoded => ([.gzipDecoded body.length decoded.length], .ok decoded)
      | .error e => ([.gzipFailed e], .error .badRequest ("Invalid gzip body: " ++ e.message)) := by
  rw [echoFull, if_pos]
  · rfl
  · rw [h, List.isEmpty_eq_false_iff.2 hne]
    rfl

end Echo

/-! ### What is taken -/

/-- Induction along the chunks that are at hand. -/
theorem feed_induction {motive : Exchange → Bytes → Prop}
    (chunk : ∀ x buffer octets, (x.body.advance buffer).outcome = .chunk octets →
      motive { x with body := (x.body.advance buffer).body, received := octets :: x.received }
        (x.body.advance buffer).rest → motive x buffer)
    (stop : ∀ x buffer, (∀ octets, (x.body.advance buffer).outcome ≠ .chunk octets) →
      motive x buffer) (x : Exchange) (buffer : Bytes) : motive x buffer := by
  induction hn : x.body.measure buffer using Nat.strongRecOn generalizing x buffer with
  | ind n ih =>
    by_cases h : ∃ octets, (x.body.advance buffer).outcome = .chunk octets
    · obtain ⟨octets, hchunk⟩ := h
      -- a chunk lowers the measure of the body
      refine chunk x buffer octets hchunk (ih _ ?_ _ _ rfl)
      exact hn ▸ (x.body.advance_le buffer).2 octets hchunk
    · exact stop x buffer fun octets hchunk => h ⟨octets, hchunk⟩

/-- What the body takes up in feeding; all of the body, if the request is answered. -/
def Progress.Takes (body : Body) (used : Bytes) : Progress → Prop
  | .waiting x => body.Takes used x.body
  | .answered _ => ∃ last, body.Takes used last ∧ last.phase = .done
  | .refused _ => True

/-- What is left after feeding is the end of what was there, and the body took up the rest. -/
theorem takes_feed (x : Exchange) (buffer : Bytes) :
    ∃ used, used ++ (x.feed buffer).rest = buffer ∧
      (x.feed buffer).progress.Takes x.body used := by
  induction x, buffer using feed_induction with
  | chunk x buffer octets hchunk ih =>
    obtain ⟨used, hbuffer, htakes⟩ := x.body.takes_advance buffer
    obtain ⟨used', hrest, htakes'⟩ := ih
    rw [feed_chunk hchunk]
    refine ⟨used ++ used', ?_, ?_⟩
    · rw [List.append_assoc, Fed.after, hrest, hbuffer]
    · rw [Fed.after]
      revert htakes'
      cases (feed { x with body := (x.body.advance buffer).body, received := octets :: x.received }
        (x.body.advance buffer).rest).progress with
      | waiting y => exact htakes.trans
      | answered response =>
        rintro ⟨last, hlast, hdone⟩
        exact ⟨last, htakes.trans hlast, hdone⟩
      | refused error => exact fun _ => trivial
  | stop x buffer hstop =>
    obtain ⟨used, hbuffer, htakes⟩ := x.body.takes_advance buffer
    refine ⟨used, ?_⟩
    cases houtcome : (x.body.advance buffer).outcome with
    | chunk octets => exact absurd houtcome (hstop octets)
    | complete =>
      rw [feed_complete houtcome]
      exact ⟨hbuffer, _, htakes, Body.phase_of_advance_complete houtcome⟩
    | wait =>
      rw [feed_wait houtcome]
      exact ⟨hbuffer, htakes⟩
    | refused error =>
      rw [feed_refused houtcome]
      exact ⟨hbuffer, trivial⟩

/-! ### Statuses -/

/-- A request is answered with a success, or with a report that its body is not what it was
declared to be. -/
theorem status_of_respond {head : Head} {echo : EchoPolicy} {maxBodySize : Nat}
    {chunks : List Bytes} :
    (respond head echo maxBodySize chunks).2.status = .ok ∨
      (respond head echo maxBodySize chunks).2.status = .badRequest := by
  unfold respond
  split
  · exact .inl rfl
  · cases echo with
    | firstChunk => exact .inl rfl
    | full =>
      dsimp only
      unfold echoFull
      split
      · split
        · exact .inl rfl
        · exact .inr rfl
      · exact .inl rfl

/-- A request is answered with success, or as a bad one. -/
theorem status_of_feed {response : Response} (h : (x.feed buffer).progress = .answered response) :
    response.status = .ok ∨ response.status = .badRequest := by
  induction x, buffer using feed_induction with
  | chunk x buffer octets hchunk ih =>
    rw [feed_chunk hchunk] at h
    exact ih h
  | stop x buffer hstop =>
    cases houtcome : (x.body.advance buffer).outcome with
    | chunk octets => exact absurd houtcome (hstop octets)
    | complete =>
      rw [feed_complete houtcome] at h
      exact Progress.answered.inj h ▸ status_of_respond
    | wait =>
      rw [feed_wait houtcome] at h
      exact nomatch h
    | refused error =>
      rw [feed_refused houtcome] at h
      exact nomatch h

/-- A request is refused for what its body is. -/
theorem isRefusal_of_feed {error : BodyError} (h : (x.feed buffer).progress = .refused error) :
    error.isRefusal := by
  induction x, buffer using feed_induction with
  | chunk x buffer octets hchunk ih =>
    rw [feed_chunk hchunk] at h
    exact ih h
  | stop x buffer hstop =>
    cases houtcome : (x.body.advance buffer).outcome with
    | chunk octets => exact absurd houtcome (hstop octets)
    | complete =>
      rw [feed_complete houtcome] at h
      cases h
    | wait =>
      rw [feed_wait houtcome] at h
      cases h
    | refused error' =>
      rw [feed_refused houtcome] at h
      cases h
      exact Body.isRefusal_of_advance houtcome

end Exchange

end HttpEcho
