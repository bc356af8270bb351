import HttpEcho.Proofs.Session.Acceptance
import HttpEcho.Proofs.Session.Answers
import HttpEcho.Proofs.Treatment

/-!
# How requests come out

A request whose head was accepted is answered, refused, or left without an answer, and which of
these it is follows from its head and from what the peer sends after it (`Session.outcome`). What a
run sends from there on is the response, and then what is sent after it. If the head is replaced by
one that is treated alike, the request comes out the same, and what is sent differs in the response
at most (`Session.replies_answering`).
-/

namespace HttpEcho

open Connection

theorem Head.TreatedLike.keepsOpen_eq {head head' : Head} (h : head.TreatedLike head')
    (s : Settings) (stopping : Bool) : keepsOpen s stopping head' = keepsOpen s stopping head := by
  rw [keepsOpen, keepsOpen, h.keepsAlive_eq]

/-- A body that is declared as too large is refused. -/
theorem Exchange.feed_of_tooLarge {head : Head} {echo : EchoPolicy} {maxBodySize n : Nat}
    {buffer : Bytes} (h : maxBodySize < n) :
    ((Exchange.start echo maxBodySize head (.length n)).feed buffer).progress =
      .refused (.tooLarge maxBodySize) := by
  have hlt : maxBodySize < 0 + n := by rwa [Nat.zero_add]
  have hstep : (Body.ofFraming (.length n) maxBodySize).step buffer =
      .refuse (.tooLarge maxBodySize) :=
    Body.step_length_of_lt rfl hlt buffer
  exact congrArg Exchange.Fed.progress
    (Exchange.feed_refused (congrArg Body.Advance.outcome (Body.advance_of_refuse hstep)))

namespace Session

/-! ### Outcomes -/

/-- How a request comes out whose head was accepted. -/
inductive Outcome where
  /-- It is answered with a response of its own. -/
  | answered (response : Response)
  /-- It is refused, with a status and a text, and the connection closes. -/
  | refused (status : Status) (message : String)
  /-- Its body does not come to an end. -/
  | unanswered
  deriving DecidableEq, Repr

/-- The outcome of a request whose body was read. -/
def Outcome.ofResult : Option (Except BodyError Response) → Outcome
  | some (.ok response) => .answered response
  | some (.error error) =>
    if error.isRefusal then .refused error.status error.message else .unanswered
  | none => .unanswered

/-- The outcome of a request: `rest` are the octets at hand after its head, and the peer sends more.
A body that is declared as too large is refused like one that turns out to be. -/
def outcome (s : Settings) (head : Head) (rest : Bytes) (peer : Peer) : Outcome :=
  match head.framing with
  | .error error => .refused error.status error.report
  | .ok framing => .ofResult (respond (.start s.echo s.maxBodySize head framing) rest peer).result

/-- A body that does not come to an end is not answered. -/
theorem ofResult_answer?_unread {result : Except Silence Arrival}
    (h : ∀ octets, result ≠ .ok (.octets octets)) :
    .ofResult (Source.unread result).answer? = Outcome.unanswered := by
  cases result with
  | ok arrival =>
    cases arrival with
    | octets octets => exact absurd rfl (h octets)
    | endOfInput | failure => rfl
  | error silence => rfl

/-! ### What is sent for a request -/

/-- What is sent for a request and after it, with the one or the other head in its place: the
response to that head, and then the same; or the same right away. -/
inductive Replies (s : Settings) (head head' : Head) : Outcome → List Bytes → List Bytes → Prop
  | answered (stopping : Bool) (response : Response) (later : List Bytes) :
      Replies s head head' (.answered response) (encodeResponse s stopping head response :: later)
        (encodeResponse s stopping head' response :: later)
  | refused (status : Status) (message : String) :
      Replies s head head' (.refused status message)
        [(Response.error status message).encode .close false]
        [(Response.error status message).encode .close false]
  | unanswered : Replies s head head' .unanswered [] []

/-- The run from a request on of which some octets of the body were fed. -/
def feeds (s : Settings) (x : Exchange) (buffer : Bytes) (peer : Peer) : Run :=
  fromTurn s ((settle s peer.isStopping x.head (x.feed buffer)).goOn s peer.now peer.isStopping)
    peer

variable {s : Settings} {p peer : Peer} {head head' : Head} {x y : Exchange} {buffer rest : Bytes}

theorem sends_fromTurn_after (turn : Turn) (actions : List Action) :
    (fromTurn s (turn.after actions) peer).trace.sends =
      actions.filterMap Action.octets? ++ (fromTurn s turn peer).trace.sends := by
  rw [fromTurn_after, sends_after, sends_shown]

theorem sends_fromTurn_finish (actions : List Action) :
    (fromTurn s (finish actions) peer).trace.sends = actions.filterMap Action.octets? := by
  rw [fromTurn, finish, runFrom, sends_after, sends_shown]
  exact List.append_nil _

theorem filterMap_logs_append (notices : List Notice) (actions : List Action) :
    (notices.map Action.log ++ actions).filterMap Action.octets? =
      actions.filterMap Action.octets? := by
  rw [List.filterMap_append, filterMap_logs, List.nil_append]

/-- A request that is answered sends the response, and then what comes after it. -/
theorem sends_feeds_of_answered {response : Response}
    (h : (x.feed buffer).progress = .answered response) :
    (feeds s x buffer peer).trace.sends = encodeResponse s peer.isStopping x.head response ::
      if keepsOpen s peer.isStopping x.head then
        (fromTurn s ((Settled.next [] (x.feed buffer).rest).goOn s peer.now peer.isStopping)
          peer).trace.sends
      else [] := by
  rw [feeds]
  split
  case isTrue hopen =>
    rw [settle_of_keepsOpen h hopen, Settled.goOn_next, sends_fromTurn_after, filterMap_logs_append]
    rfl
  case isFalse hopen =>
    rw [settle_of_not_keepsOpen h hopen, Settled.goOn, sends_fromTurn_after, filterMap_logs_append,
      sends_fromTurn_finish]
    rfl

/-- A request that is refused sends the report, and nothing after it. -/
theorem sends_feeds_of_refused {error : BodyError} (h : (x.feed buffer).progress = .refused error) :
    (feeds s x buffer peer).trace.sends =
      [(Response.error error.status error.message).encode .close false] := by
  rw [feeds, settle_of_refused h, Settled.goOn, sends_fromTurn_after, filterMap_logs, reject,
    sends_fromTurn_finish]
  rfl

/-- A request that waits for more of its body sends nothing before it gets some. -/
theorem sends_feeds_of_waiting (h : (x.feed buffer).progress = .waiting y) :
    (feeds s x buffer peer).trace.sends =
      (afterRead s (.body y (x.feed buffer).rest) (peer.read ⟨none, false⟩)).trace.sends := by
  have hread : (runFrom s none (.body y (x.feed buffer).rest) 0 peer).trace.sends =
      (afterRead s (.body y (x.feed buffer).rest) (peer.read ⟨none, false⟩)).trace.sends :=
    sends_runFrom_eq nofun rfl
  rw [feeds, settle_of_waiting h, Settled.goOn, fromTurn, sends_after, sends_shown,
    filterMap_logs, hread]
  rfl

theorem sends_feeds_of_octets {octets : Bytes} (h : (x.feed buffer).progress = .waiting y)
    (hread : (peer.read ⟨none, false⟩).result = .ok (.octets octets)) :
    (feeds s x buffer peer).trace.sends =
      (feeds s y ((x.feed buffer).rest ++ octets) (peer.read ⟨none, false⟩).peer).trace.sends := by
  have hne := Peer.ne_nil_of_read rfl hread
  rw [sends_feeds_of_waiting h, afterRead, hread]
  change (arrives s _ _ octets).trace.sends = _
  rw [arrives_of_ne_nil hne, step, resume_eq_goOn, feeds]

/-- A request whose body does not come to an end sends nothing. -/
theorem sends_feeds_of_not_octets (h : (x.feed buffer).progress = .waiting y)
    (hread : ∀ octets, (peer.read ⟨none, false⟩).result ≠ .ok (.octets octets)) :
    (feeds s x buffer peer).trace.sends = [] := by
  rw [sends_feeds_of_waiting h, afterRead]
  cases hresult : (peer.read ⟨none, false⟩).result with
  | ok arrival =>
    cases arrival with
    | octets octets => exact absurd hresult (hread octets)
    | endOfInput | failure => rfl
  | error silence => cases silence <;> rfl

/-- **A body comes to the same** with a head that is treated alike in the place of the one it has,
and what is sent for it differs in the response at most. -/
theorem replies_feeds (h : x.head.TreatedLike head') (buffer : Bytes) (peer : Peer) :
    Replies s x.head head' (.ofResult (respond x buffer peer).result)
      (feeds s x buffer peer).trace.sends (feeds s (x.withHead head') buffer peer).trace.sends := by
  induction hn : peer.script.length using Nat.strongRecOn generalizing x buffer peer with
  | ind n ih =>
    obtain ⟨hprogress, hrest⟩ := Exchange.feed_withHead h buffer
    cases hfed : (x.feed buffer).progress with
    | answered response =>
      rw [hfed] at hprogress
      rw [respond_of_answered hfed, sends_feeds_of_answered hfed,
        sends_feeds_of_answered hprogress, hrest]
      change Replies s x.head head' _ _ (_ :: if keepsOpen s peer.isStopping head' then _ else _)
      rw [h.keepsOpen_eq]
      exact .answered _ _ _
    | refused error =>
      rw [hfed] at hprogress
      rw [respond_of_refused hfed, sends_feeds_of_refused hfed, sends_feeds_of_refused hprogress,
        Outcome.ofResult, if_pos (Exchange.isRefusal_of_feed hfed)]
      exact .refused _ _
    | waiting y =>
      rw [hfed] at hprogress
      by_cases hoctets : ∃ octets, (peer.read ⟨none, false⟩).result = .ok (.octets octets)
      · obtain ⟨octets, hread⟩ := hoctets
        have hlt := hn ▸ Peer.length_read_script_lt hread
        have hhead := Exchange.head_of_waiting hfed
        rw [respond_of_octets hfed hread, sends_feeds_of_octets hfed hread,
          sends_feeds_of_octets hprogress hread, hrest, ← hhead]
        exact ih _ hlt (hhead ▸ h) _ _ rfl
      · have hread := fun octets hread => hoctets ⟨octets, hread⟩
        rw [respond_of_noOctets hfed hread, ofResult_answer?_unread hread,
          sends_feeds_of_not_octets hfed hread, sends_feeds_of_not_octets hprogress hread]
        exact .unanswered

/-- A request is announced with a go-ahead or without one. -/
theorem filterMap_announce_cases (head : Head) (framing : Framing) :
    (announce head framing).filterMap Action.octets? = [] ∨
      (announce head framing).filterMap Action.octets? = [continueResponse] := by
  rw [announce]
  split
  · exact .inr rfl
  · exact .inl rfl

theorem filterMap_announce_congr (h : head'.expectsContinue = head.expectsContinue)
    (framing : Framing) :
    (announce head' framing).filterMap Action.octets? =
      (announce head framing).filterMap Action.octets? := by
  rw [announce, announce, h]
  rfl

/-- A head that is refused is sent the report, and nothing else. -/
theorem sends_answering_of_refusal {notice : Notice} {status : Status} {message : String}
    (h : Refusal s head notice status message) :
    (answering s head rest peer).trace.sends =
      [(Response.error status message).encode .close false] := by
  rw [answering, answer_of_refusal h, Settled.goOn, sends_fromTurn_after, reject,
    sends_fromTurn_finish]
  rfl

/-- A head that is not refused is sent its go-ahead, and then what its body leads to. -/
theorem sends_answering_of_framing {framing : Framing} (h : head.framing = .ok framing)
    (hlength : ∀ n, framing = .length n → n ≤ s.maxBodySize) :
    (answering s head rest peer).trace.sends = (announce head framing).filterMap Action.octets? ++
      (feeds s (.start s.echo s.maxBodySize head framing) rest peer).trace.sends := by
  rw [answering, answer_of_framing h hlength, Settled.goOn_after, sends_fromTurn_after]
  rfl

/-- A head that is refused comes out as refused. -/
theorem outcome_of_refusal {notice : Notice} {status : Status} {message : String}
    (h : Refusal s head notice status message) :
    outcome s head rest peer = .refused status message := by
  rw [outcome]
  cases h with
  | framing hframing => rw [hframing]
  | tooLarge hframing hlt =>
    rw [hframing]
    dsimp only
    rw [respond_of_refused (Exchange.feed_of_tooLarge hlt)]
    rfl

/-- **A request comes to the same** with a head that is treated alike in the place of its own: what
is sent from there on is the go-ahead or nothing, and then differs in the response at most. -/
theorem replies_answering (s : Settings) (head : Head) (rest : Bytes) (peer : Peer) :
    ∃ goAhead, (goAhead = [] ∨ goAhead = [continueResponse]) ∧
      ∀ head', head.TreatedLike head' → ∃ sends sends',
        Replies s head head' (outcome s head rest peer) sends sends' ∧
          (answering s head rest peer).trace.sends = goAhead ++ sends ∧
            (answering s head' rest peer).trace.sends = goAhead ++ sends' := by
  by_cases hrefusal : ∃ notice status message, Refusal s head notice status message
  · obtain ⟨notice, status, message, hrefusal⟩ := hrefusal
    refine ⟨[], .inl rfl, fun head' h => ?_⟩
    rw [outcome_of_refusal hrefusal, sends_answering_of_refusal hrefusal,
      sends_answering_of_refusal (hrefusal.congr h.framing_eq)]
    exact ⟨_, _, .refused status message, rfl, rfl⟩
  · obtain ⟨framing, hframing, hlength⟩ := exists_framing_of_not_refusal hrefusal
    refine ⟨(announce head framing).filterMap Action.octets?, filterMap_announce_cases head framing,
      fun head' h => ?_⟩
    have houtcome : outcome s head rest peer =
        .ofResult (respond (.start s.echo s.maxBodySize head framing) rest peer).result := by
      rw [outcome, hframing]
    rw [houtcome, sends_answering_of_framing hframing hlength,
      sends_answering_of_framing (h.framing_eq.trans hframing) hlength,
      filterMap_announce_congr h.expectsContinue_eq]
    have hreplies := @replies_feeds s head' (.start s.echo s.maxBodySize head framing) h rest peer
    exact ⟨_, _, hreplies, rfl, rfl⟩

/-- What is sent is the same if the two heads are of one class. -/
theorem Replies.sends_eq {outcome : Outcome} {sends sends' : List Bytes}
    (h : Replies s head head' outcome sends sends') (htreated : head.TreatedLike head')
    (hhead : head'.method = .head ↔ head.method = .head) : sends' = sends := by
  cases h with
  | answered stopping response later =>
    rw [encodeResponse, encodeResponse, htreated.keepsOpen_eq, decide_eq_decide.2 hhead]
  | refused | unanswered => rfl

end Session

end HttpEcho
