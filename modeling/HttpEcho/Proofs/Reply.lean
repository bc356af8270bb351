import HttpEcho.Proofs.Body.Delivery
import HttpEcho.Proofs.Exchange

/-!
# Replies

`Head.reply` is the response to a request with a whole body, under the policy that echoes all of
it. An exchange comes to that response however its body arrives and is cut into chunks
(`Exchange.delivers_feed`).
-/

namespace HttpEcho

/-- The response to a request with a body: a greeting to GET, and the body to every other method,
decoded if it is declared as gzip. -/
def Head.reply (limit : Nat) (head : Head) (body : Bytes) : Response :=
  if head.method = .get then .ok (greeting head.userAgent?)
  else if head.isGzip ∧ body ≠ [] then
    match Gzip.decode limit body with
    | .ok decoded => .ok decoded
    | .error e => .error .badRequest s!"Invalid gzip body: {e.message}"
  else .ok body

namespace Exchange

/-- The response depends on the chunks only through what they make together. -/
theorem respond_full (head : Head) (limit : Nat) (chunks : List Bytes) :
    (respond head .full limit chunks).2 = head.reply limit chunks.flatten := by
  unfold respond Head.reply
  by_cases hget : head.method = .get
  · rw [if_pos hget, if_pos hget]
  · rw [if_neg hget, if_neg hget]
    dsimp only
    by_cases hgzip : head.isGzip ∧ chunks.flatten ≠ []
    · rw [if_pos hgzip, echoFull_of_gzip hgzip.1 hgzip.2]
      cases Gzip.decode limit chunks.flatten <;> rfl
    · rw [if_neg hgzip, echoFull_of_plain]
      rwa [Classical.not_and_iff_not_or_not, Classical.not_not] at hgzip

/-- The exchange echoes all of its body, of which the given text is still to be read. -/
structure Awaits (x : Exchange) (text body : Bytes) : Prop where
  echo_eq : x.echo = .full
  pending : ∃ octets, x.body.Pending text octets ∧ body = x.received.reverse.flatten ++ octets

/-- What feeding may give when the stream is still to come and other octets follow the text. -/
def Fed.Delivers (x : Exchange) (body stream after : Bytes) (fed : Fed) : Prop :=
  match fed.progress with
  | .waiting y => y.head = x.head ∧ y.maxBodySize = x.maxBodySize ∧
      ∃ text, y.Awaits text body ∧ fed.rest ++ stream = text ++ after ∧
        fed.rest.length < text.length
  | .answered response => response = x.head.reply x.maxBodySize body ∧ fed.rest ++ stream = after
  | .refused _ => False

/-- An exchange that begins awaits the whole text of its body. -/
theorem awaits_start {head : Head} {framing : Framing} {limit : Nat} {text body : Bytes}
    (hframing : head.framing = .ok framing) (hframes : framing.Frames text body)
    (hlimit : body.length ≤ limit) : (start .full limit head framing).Awaits text body :=
  ⟨rfl, body, Body.pending_ofFraming hframing hframes hlimit, rfl⟩

/-- **Feeding comes to the reply**, or waits for what is missing of the body. -/
theorem delivers_feed (x : Exchange) (buffer : Bytes) {text body stream after : Bytes}
    (h : x.Awaits text body) (heq : buffer ++ stream = text ++ after) :
    (x.feed buffer).Delivers x body stream after := by
  induction x, buffer using feed_induction generalizing text with
  | chunk x buffer octets houtcome ih =>
    obtain ⟨hecho, left, hpending, hbody⟩ := h
    have hadvance := Body.delivers_advance hpending heq
    rw [Body.Advance.Delivers, houtcome] at hadvance
    obtain ⟨text', left', rfl, hpending', hrest⟩ := hadvance
    rw [feed_chunk houtcome]
    refine ih ⟨hecho, left', hpending', ?_⟩ hrest
    rw [hbody, List.reverse_cons, List.flatten_append, List.flatten_singleton, List.append_assoc]
  | stop x buffer hstop =>
    obtain ⟨hecho, left, hpending, hbody⟩ := h
    have hadvance := Body.delivers_advance hpending heq
    rw [Body.Advance.Delivers] at hadvance
    cases houtcome : (x.body.advance buffer).outcome with
    | chunk octets => exact absurd houtcome (hstop octets)
    | complete =>
      rw [houtcome] at hadvance
      obtain ⟨rfl, hrest⟩ := hadvance
      rw [feed_complete houtcome, hecho]
      refine ⟨?_, hrest⟩
      rw [respond_full, hbody, List.append_nil]
    | wait =>
      rw [houtcome] at hadvance
      obtain ⟨text', hpending', hrest, hlt⟩ := hadvance
      rw [feed_wait houtcome]
      exact ⟨rfl, rfl, text', ⟨hecho, left, hpending', hbody⟩, hrest, hlt⟩
    | refused error =>
      rw [houtcome] at hadvance
      exact hadvance.elim

end Exchange

end HttpEcho
