import HttpEcho.Proofs.Body.Bounds
import HttpEcho.Proofs.Connection.Deadlines
import HttpEcho.Proofs.Head.Arrival

/-!
# Bounds of a connection

A connection waits for more only while it holds few octets, whatever arrived before
(`Connection.Phase.Bounded`), and a request other than GET is answered with no more octets than a
body may have (`RepliesWithin`). Both are kept by every turn (`Connection.bounded_step`).
-/

namespace HttpEcho

/-! ### Responses -/

namespace Response

/-- The length of the body of a response can be read off the wire. -/
theorem length_eq_of_encode_eq {r r' : Response} {p p' : Persistence} {headOnly headOnly' : Bool}
    (h : r.encode p headOnly = r'.encode p' headOnly') : r.body.length = r'.body.length := by
  have hline := (lines_eq_of_encode_eq h).2.1
  rw [lengthLine, lengthLine, Utf8.encode_inj] at hline
  have hnumber : (toString r.body.length).toList = (toString r'.body.length).toList := by
    have hlists := congrArg String.toList hline
    rw [String.toList_append, String.toList_append] at hlists
    exact List.append_cancel_left hlists
  rw [Nat.toString_eq_ofList_toDigits, Nat.toString_eq_ofList_toDigits, String.toList_ofList,
    String.toList_ofList] at hnumber
  rw [← Nat.ofDigitChars_toDigits (b := 10) (n := r.body.length) (by decide) (by decide), hnumber,
    Nat.ofDigitChars_toDigits (by decide) (by decide)]

end Response

/-- An error is no success. -/
theorem ProtocolError.status_ne_ok (error : ProtocolError) : error.status ≠ .ok := by
  cases error <;> exact nofun

/-- No error of a body has the status of a success. -/
theorem BodyError.status_ne_ok (error : BodyError) : error.status ≠ .ok := by
  cases error <;> exact nofun

/-- The method of the last request that events tell of. -/
def Event.method? (before? : Option String) : Event → Option String
  | .logged (.request method _) => some method
  | _ => before?

/-- The method of the last request, after some events. -/
def lastMethod? (before? : Option String) (events : List Event) : Option String :=
  events.foldl Event.method? before?

/-- A success on the wire has a short body, unless the last request is a GET. There is one. -/
def ReplyWithin (limit : Nat) (method? : Option String) (octets : Bytes) : Prop :=
  ∀ (r : Response) (p : Persistence) (headOnly : Bool), octets = r.encode p headOnly →
    r.status = .ok → ∃ method, method? = some method ∧
      (method ≠ Method.get.token → r.body.length ≤ limit)

/-- All that is sent is within a limit. -/
def RepliesWithin (limit : Nat) : Option String → List Event → Prop
  | _, [] => True
  | method?, event :: rest =>
    (∀ octets, event = .sent octets → ReplyWithin limit method? octets) ∧
      RepliesWithin limit (event.method? method?) rest

variable {limit : Nat} {method? : Option String} {events events' : List Event}

theorem lastMethod?_append : lastMethod? method? (events ++ events') =
    lastMethod? (lastMethod? method? events) events' := List.foldl_append

theorem repliesWithin_append : RepliesWithin limit method? (events ++ events') ↔
    RepliesWithin limit method? events ∧
      RepliesWithin limit (lastMethod? method? events) events' := by
  induction events generalizing method? with
  | nil => exact (and_iff_right trivial).symm
  | cons event events ih =>
    rw [List.cons_append, RepliesWithin, RepliesWithin, ih, and_assoc]
    rfl

theorem repliesWithin_sent {octets : Bytes} (h : ReplyWithin limit method? octets)
    (hrest : RepliesWithin limit method? events) :
    RepliesWithin limit method? (.sent octets :: events) :=
  ⟨fun _ heq => Event.sent.inj heq ▸ h, hrest⟩

theorem repliesWithin_logged {notice : Notice}
    (hrest : RepliesWithin limit (Event.method? method? (.logged notice)) events) :
    RepliesWithin limit method? (.logged notice :: events) := ⟨nofun, hrest⟩

/-- The go-ahead has no body. -/
theorem replyWithin_continueResponse : ReplyWithin limit method? continueResponse :=
  fun r p headOnly h _ => absurd h.symm (Response.encode_ne_continueResponse r p headOnly)

/-- A response that is no success is within every limit. -/
theorem replyWithin_of_ne_ok {r : Response} (h : r.status ≠ .ok) (p : Persistence)
    (headOnly : Bool) : ReplyWithin limit method? (r.encode p headOnly) :=
  fun _ _ _ heq hok => absurd ((Response.status_eq_of_encode_eq heq).trans hok) h

/-! ### Exchanges -/

/-- What is decoded is within the limit. -/
theorem Gzip.length_decode_le {bytes decoded : Bytes} (h : decode limit bytes = .ok decoded) :
    decoded.length ≤ limit := by
  rw [decode] at h
  split at h
  · cases h
  split at h
  · cases h
  · rename_i hle
    obtain rfl := Except.ok.inj h
    exact Nat.le_of_not_lt hle

namespace Exchange

variable {x : Exchange} {buffer : Bytes}

/-- What was received of a body is counted, and within the limit. -/
structure Within (x : Exchange) : Prop where
  body : x.body.Within
  limit_eq : x.body.limit = x.maxBodySize
  received_eq : x.received.flatten.length = x.body.received

theorem within_start (echo : EchoPolicy) (maxBodySize : Nat) (head : Head) (framing : Framing) :
    (start echo maxBodySize head framing).Within :=
  ⟨Body.within_ofFraming framing maxBodySize, rfl, rfl⟩

/-- The response to a request other than GET is no longer than a body may be, decoded or not. -/
theorem length_respond_le {head : Head} {echo : EchoPolicy} {maxBodySize : Nat}
    {chunks : List Bytes}
    (hget : head.method ≠ .get) (hchunks : chunks.flatten.length ≤ maxBodySize)
    (hok : (respond head echo maxBodySize chunks).2.status = .ok) :
    (respond head echo maxBodySize chunks).2.body.length ≤ maxBodySize := by
  revert hok
  unfold respond
  rw [if_neg hget]
  cases echo with
  | firstChunk =>
    intro _
    cases chunks with
    | nil => exact Nat.zero_le _
    | cons octets rest =>
      rw [List.flatten_cons, List.length_append] at hchunks
      exact Nat.le_trans (Nat.le_add_right _ _) hchunks
  | full =>
    dsimp only
    unfold echoFull
    split
    · split
      case h_1 decoded hdecode => exact fun _ => Gzip.length_decode_le hdecode
      case h_2 => exact nofun
    · exact fun _ => hchunks

/-- What feeding leads to is within the bounds of an exchange. -/
def Progress.Bounded (x : Exchange) (rest : Bytes) : Progress → Prop
  | .waiting y => y.Within ∧ y.head = x.head ∧ y.maxBodySize = x.maxBodySize ∧
      rest.length ≤ maxBodyBuffer x.maxBodySize
  | .answered response => x.head.method ≠ .get → response.status = .ok →
      response.body.length ≤ x.maxBodySize
  | .refused _ => True

/-- A chunk for which the body has room is received within the limit. -/
theorem Within.chunk {octets : Bytes} (h : x.Within)
    (hchunk : (x.body.advance buffer).outcome = .chunk octets) :
    Within { x with body := (x.body.advance buffer).body, received := octets :: x.received } := by
  have hgoes := h.body.goes_advance buffer
  rw [hchunk] at hgoes
  refine ⟨hgoes.within, hgoes.limit_eq.trans h.limit_eq, ?_⟩
  rw [hgoes.received_eq, ← h.received_eq, List.flatten_cons, List.length_append, Nat.add_comm]
  rfl

/-- **Feeding keeps the bounds.** -/
theorem Within.bounded_feed (h : x.Within) (buffer : Bytes) :
    (x.feed buffer).progress.Bounded x (x.feed buffer).rest := by
  induction x, buffer using feed_induction with
  | chunk x buffer octets hchunk ih =>
    rw [feed_chunk hchunk]
    exact ih (h.chunk hchunk)
  | stop x buffer hstop =>
    cases houtcome : (x.body.advance buffer).outcome with
    | chunk octets => exact absurd houtcome (hstop octets)
    | refused error =>
      rw [feed_refused houtcome]
      trivial
    | wait =>
      have hgoes := h.body.goes_advance buffer
      rw [houtcome] at hgoes
      rw [feed_wait houtcome]
      refine ⟨⟨hgoes.within, hgoes.limit_eq.trans h.limit_eq, ?_⟩, rfl, rfl, ?_⟩
      · exact h.received_eq.trans hgoes.received_eq.symm
      · exact h.limit_eq ▸ h.body.length_le_of_advance_wait houtcome
    | complete =>
      rw [feed_complete houtcome]
      intro hget hok
      refine length_respond_le hget ?_ hok
      rw [(List.reverse_perm x.received).flatten.length_eq, h.received_eq, ← h.limit_eq]
      exact h.body.received_le

end Exchange

/-- A buffer in which a head is incomplete is no longer than a head may be. -/
theorem Head.length_le_of_parse_incomplete {buffer : Bytes}
    (h : parse limit buffer = .error .incomplete) : buffer.length ≤ limit := by
  cases hsize : size? buffer with
  | some n => exact absurd h (parse_of_size? limit hsize).1
  | none =>
    rw [parse_of_size?_eq_none limit hsize] at h
    split at h
    case isTrue => cases h
    case isFalse hle => exact Nat.le_of_not_lt hle

namespace Connection

variable {s : Settings} {now : Nat} {stopping : Bool}

/-- A phase of a connection that holds few octets. With a body, its request is the last one. -/
inductive Phase.Bounded (s : Settings) (method? : Option String) : Phase → Prop
  | idle {first : Bool} {deadline : Nat} : Bounded s method? (.idle first deadline)
  | head {deadline : Nat} {buffer : Bytes} (hlength : buffer.length ≤ s.maxHeaderSize) :
      Bounded s method? (.head deadline buffer)
  | body {exchange : Exchange} {buffer : Bytes} (hwithin : exchange.Within)
      (hlimit : exchange.maxBodySize = s.maxBodySize)
      (hmethod : method? = some exchange.head.method.token)
      (hlength : buffer.length ≤ maxBodyBuffer s.maxBodySize) :
      Bounded s method? (.body exchange buffer)
  | ended {ending : Ending} : Bounded s method? (.ended ending)

/-- The events of actions. -/
def eventsOf (actions : List Action) : List Event := actions.map Action.event

/-- A turn that keeps the bounds. -/
structure Turn.Bounded (s : Settings) (method? : Option String) (turn : Turn) : Prop where
  replies : RepliesWithin s.maxBodySize method? (eventsOf turn.actions)
  phase : turn.phase.Bounded s (lastMethod? method? (eventsOf turn.actions))

/-- What an exchange leads to keeps the bounds. -/
def Settled.Bounded (s : Settings) (method? : Option String) : Settled → Prop
  | .turn t => t.Bounded s method?
  | .next actions _ => RepliesWithin s.maxBodySize method? (eventsOf actions)

theorem eventsOf_append (actions actions' : List Action) :
    eventsOf (actions ++ actions') = eventsOf actions ++ eventsOf actions' := List.map_append

theorem Turn.Bounded.after {turn : Turn} {actions : List Action}
    (h : turn.Bounded s (lastMethod? method? (eventsOf actions)))
    (hactions : RepliesWithin s.maxBodySize method? (eventsOf actions)) :
    (turn.after actions).Bounded s method? := by
  refine ⟨?_, ?_⟩
  · rw [Turn.after, eventsOf_append]
    exact repliesWithin_append.2 ⟨hactions, h.replies⟩
  · rw [Turn.after, eventsOf_append, lastMethod?_append]
    exact h.phase

theorem Settled.Bounded.after {settled : Settled} {actions : List Action}
    (h : settled.Bounded s (lastMethod? method? (eventsOf actions)))
    (hactions : RepliesWithin s.maxBodySize method? (eventsOf actions)) :
    (settled.after actions).Bounded s method? := by
  cases settled with
  | turn t => exact Turn.Bounded.after h hactions
  | next more left =>
    rw [Settled.after, Settled.Bounded, eventsOf_append]
    exact repliesWithin_append.2 ⟨hactions, h⟩

/-- Going on keeps the bounds if serving what is left does, whatever the last request is. -/
theorem Settled.Bounded.goOn {settled : Settled} (h : settled.Bounded s method?)
    (hserve : ∀ actions rest, settled = .next actions rest → ∀ method?,
      (serve s now stopping (now + s.headersTimeout) rest).Bounded s method?) :
    (settled.goOn s now stopping).Bounded s method? := by
  cases settled with
  | turn t => exact h
  | next actions rest =>
    cases rest with
    | nil => exact ⟨h, .idle⟩
    | cons b rest => exact (hserve actions (b :: rest) rfl _).after h

/-- Notices other than those of requests tell of no request, and send nothing. -/
theorem bounded_logs (limit : Nat) (method? : Option String) {notices : List Notice}
    (h : ∀ notice ∈ notices, ¬ notice.isRequest) :
    RepliesWithin limit method? (eventsOf (notices.map .log)) ∧
      lastMethod? method? (eventsOf (notices.map .log)) = method? := by
  induction notices with
  | nil => exact ⟨trivial, rfl⟩
  | cons notice notices ih =>
    obtain ⟨hnotice, hnotices⟩ := List.forall_mem_cons.1 h
    obtain ⟨hreplies, hlast⟩ := ih hnotices
    have hsame : Event.method? method? (.logged notice) = method? := by
      cases notice <;> first | rfl | exact absurd rfl hnotice
    refine ⟨⟨nofun, ?_⟩, ?_⟩
    · rw [Action.event, hsame]
      exact hreplies
    · have hcons : lastMethod? method? (eventsOf ((notice :: notices).map .log)) =
          lastMethod? (Event.method? method? (.logged notice)) (eventsOf (notices.map .log)) := rfl
      rw [hcons, hsame, hlast]

/-- A refusal is no success. -/
theorem bounded_reject {notice : Notice} {status : Status} (hstatus : status ≠ .ok)
    (message : String) : (reject notice status message).Bounded s method? := by
  have hreply : ∀ method?, ReplyWithin s.maxBodySize method?
      ((Response.error status message).encode .close false) :=
    fun _ => replyWithin_of_ne_ok hstatus .close false
  have hclosed : ∀ method?, RepliesWithin s.maxBodySize method? [.closed] :=
    fun _ => ⟨nofun, trivial⟩
  exact ⟨repliesWithin_logged (repliesWithin_sent (hreply _) (hclosed _)), .ended⟩

theorem bounded_finish (notice : Notice) : (finish [.log notice]).Bounded s method? :=
  ⟨repliesWithin_logged trivial, .ended⟩

/-- The response to a request within the bounds. -/
theorem replyWithin_encodeResponse {head : Head} {response : Response}
    (h : head.method ≠ .get → response.status = .ok → response.body.length ≤ s.maxBodySize) :
    ReplyWithin s.maxBodySize (some head.method.token)
      (encodeResponse s stopping head response) := by
  intro r p headOnly hencode hok
  refine ⟨head.method.token, rfl, fun hget => ?_⟩
  rw [encodeResponse] at hencode
  rw [← Response.length_eq_of_encode_eq hencode]
  exact h (fun hmethod => hget (congrArg Method.token hmethod))
    ((Response.status_eq_of_encode_eq hencode).trans hok)

theorem bounded_settle {x : Exchange} {buffer : Bytes} (hwithin : x.Within)
    (hlimit : x.maxBodySize = s.maxBodySize) (hmethod : method? = some x.head.method.token) :
    (settle s stopping x.head (x.feed buffer)).Bounded s method? := by
  have hnotices : ∀ notice ∈ (x.feed buffer).notices, ¬ notice.isRequest :=
    not_isRequest_of_mem_feed
  obtain ⟨hlogs, hlast⟩ := bounded_logs s.maxBodySize method? hnotices
  have hfeed := hwithin.bounded_feed buffer
  cases hprogress : (x.feed buffer).progress with
  | waiting y =>
    rw [hprogress] at hfeed
    obtain ⟨hy, hhead, hmax, hlength⟩ := hfeed
    rw [settle_of_waiting hprogress]
    refine ⟨hlogs, .body hy (hmax.trans hlimit) ?_ (hlimit ▸ hlength)⟩
    rw [hlast, hmethod, hhead]
  | refused error =>
    rw [settle_of_refused hprogress]
    exact (bounded_reject error.status_ne_ok _).after hlogs
  | answered response =>
    rw [hprogress] at hfeed
    have hreply : ReplyWithin s.maxBodySize method?
        (encodeResponse s stopping x.head response) := by
      rw [hmethod]
      exact replyWithin_encodeResponse fun hget hok => hlimit ▸ hfeed hget hok
    have hsent : RepliesWithin s.maxBodySize method? (eventsOf ((x.feed buffer).notices.map .log ++
        [.send (encodeResponse s stopping x.head response)])) := by
      rw [eventsOf_append]
      exact repliesWithin_append.2 ⟨hlogs, repliesWithin_sent (hlast.symm ▸ hreply) trivial⟩
    by_cases hopen : keepsOpen s stopping x.head
    · rw [settle_of_keepsOpen hprogress hopen]
      exact hsent
    · rw [settle_of_not_keepsOpen hprogress hopen]
      have hclosing : ∀ method?, RepliesWithin s.maxBodySize method?
          (eventsOf [.log .closingAfterResponse, .close]) :=
        fun _ => repliesWithin_logged ⟨nofun, trivial⟩
      exact Turn.Bounded.after ⟨hclosing _, .ended⟩ hsent

/-- An accepted head makes its request the last one. -/
theorem bounded_announce (limit : Nat) (method? : Option String) (head : Head) (framing : Framing) :
    RepliesWithin limit method? (eventsOf (announce head framing)) ∧
      lastMethod? method? (eventsOf (announce head framing)) = some head.method.token := by
  unfold announce
  split
  · exact ⟨repliesWithin_logged (repliesWithin_sent replyWithin_continueResponse trivial), rfl⟩
  · exact ⟨repliesWithin_logged trivial, rfl⟩

theorem Refusal.status_ne_ok {head : Head} {notice : Notice} {status : Status} {message : String}
    (h : Refusal s head notice status message) : status ≠ .ok := by
  cases h with
  | framing => exact ProtocolError.status_ne_ok _
  | tooLarge => exact BodyError.status_ne_ok _

theorem bounded_answer {head : Head} {rest : Bytes} :
    (answer s stopping head rest).Bounded s method? := by
  rcases answer_cases s head rest with ⟨framing, -, hanswer⟩ | ⟨_, _, _, hrefusal, hanswer⟩
  · obtain ⟨hannounce, hlast⟩ := bounded_announce s.maxBodySize method? head framing
    rw [hanswer]
    exact Settled.Bounded.after (bounded_settle (Exchange.within_start _ _ _ _) rfl hlast) hannounce
  · have hlog : RepliesWithin s.maxBodySize method?
        (eventsOf [.log (.request head.method.token head.target)]) := repliesWithin_logged trivial
    rw [hanswer]
    exact Turn.Bounded.after (bounded_reject hrefusal.status_ne_ok _) hlog

theorem bounded_serve (deadline : Nat) (buffer : Bytes) : ∀ method?,
    (serve s now stopping deadline buffer).Bounded s method? := by
  induction deadline, buffer using serve_induction with
  | incomplete deadline buffer hparse =>
    intro method?
    rw [serve_of_incomplete hparse]
    exact ⟨trivial, .head (Head.length_le_of_parse_incomplete hparse)⟩
  | refused deadline buffer error hparse hne =>
    intro method?
    rw [serve_of_error hparse hne]
    exact bounded_reject error.status_ne_ok _
  | request deadline buffer head size hparse ih =>
    intro method?
    rw [serve_of_ok hparse]
    exact bounded_answer.goOn ih

/-- **A step of the connection keeps the bounds.** -/
theorem bounded_step {phase : Phase} (h : phase.Bounded s method?) (input : Input) :
    (step s now stopping phase input).Bounded s method? := by
  have hended : ∀ ending, Turn.Bounded s method? { actions := [], phase := .ended ending } :=
    fun _ => ⟨trivial, .ended⟩
  cases h with
  | idle =>
    cases input with
    | octets octets => exact bounded_serve _ _ _
    | failure kind => exact hended _
    | endOfInput | deadline | stop => exact bounded_finish _
  | head hlength =>
    cases input with
    | octets octets => exact bounded_serve _ _ _
    | failure kind => exact hended _
    | endOfInput => exact bounded_finish _
    | deadline =>
      have hstatus : Status.requestTimeout ≠ .ok := nofun
      exact bounded_reject hstatus _
    | stop => exact ⟨trivial, .head hlength⟩
  | body hwithin hlimit hmethod hlength =>
    cases input with
    | octets octets =>
      rw [step, resume_eq_goOn]
      exact (bounded_settle hwithin hlimit hmethod).goOn fun _ rest _ => bounded_serve _ rest
    | failure kind => exact hended _
    | endOfInput => exact bounded_finish _
    | deadline | stop => exact ⟨trivial, .body hwithin hlimit hmethod hlength⟩
  | ended => exact hended _

end Connection

end HttpEcho
