import HttpEcho.Proofs.Head.Persistence
import HttpEcho.Proofs.Session.Outcome
import HttpEcho.Proofs.Session.Stopping

/-!
# The last request of a connection

A request that does not let the connection stay open is the last one: it is answered with a response
that closes, or refused, or left without an answer, and no other head is accepted after it
(`Session.feeds_of_not_keepsAlive`, by induction on the moves of the peer). So a head that asks to
close ends its connection, unless it is of version 1.0 and asks to stay as well; then it is treated
as if it only asked to stay (`Session.partsWith_of_run`).
-/

namespace HttpEcho

open Connection

namespace Session

variable {s : Settings} {p peer : Peer} {head : Head} {x : Exchange} {rest : Bytes}

/-- What is sent for the last request of a connection, by how it comes out. -/
inductive LastReply (head : Head) : Outcome → List Bytes → Prop
  | answered (response : Response) :
      LastReply head (.answered response) [response.encode .close (head.method = .head)]
  | refused (status : Status) (message : String) :
      LastReply head (.refused status message) [(Response.error status message).encode .close false]
  | unanswered : LastReply head .unanswered []

/-- The last reply closes the connection. -/
theorem LastReply.closes {outcome : Outcome} {replies : List Bytes}
    (h : LastReply head outcome replies) : ∀ octets ∈ replies, Response.Closes octets := by
  cases h with
  | answered response => exact List.forall_mem_singleton.2 ⟨response, _, rfl⟩
  | refused status message => exact List.forall_mem_singleton.2 ⟨.error status message, _, rfl⟩
  | unanswered => exact List.forall_mem_nil _

/-! ### Nothing else is accepted -/

theorem accepted_append (trace trace' : Trace) :
    Trace.accepted (trace ++ trace') = trace.accepted + trace'.accepted :=
  List.countP_append

/-- No head is accepted while reading. -/
theorem accepted_read (peer : Peer) (patience : Patience) :
    (peer.read patience).trace.accepted = 0 :=
  List.countP_eq_zero.2 not_isAccept_of_mem_read

theorem accepted_shown {actions : List Action} (now : Nat) (h : AcceptsNone actions) :
    (shown now actions).accepted = 0 := by
  refine List.countP_eq_zero.2 fun stamped hmem => ?_
  obtain ⟨action, haction, rfl⟩ := List.mem_map.1 hmem
  cases action with
  | log notice => exact h notice haction
  | send | close => exact Bool.false_ne_true

/-- No head is accepted after a turn that ends the connection. -/
theorem accepted_fromTurn_of_ended {turn : Turn} {ending : Ending} (h : AcceptsNone turn.actions)
    (hended : turn.phase = .ended ending) : (fromTurn s turn peer).trace.accepted = 0 := by
  rw [fromTurn, hended, runFrom, Run.after, accepted_append, accepted_shown _ h]
  rfl

/-- When something other than octets comes, no head is accepted. -/
theorem accepted_afterRead {phase : Phase} {r : Reading}
    (h : ∀ octets, r.result ≠ .ok (.octets octets)) : (afterRead s phase r).trace.accepted = 0 := by
  have hstep : ∀ input : Input, (∀ octets, input ≠ .octets octets) →
      (shown r.peer.now (step s r.peer.now r.peer.isStopping phase input).actions).accepted =
        0 := by
    intro input hinput
    refine accepted_shown _ fun notice hmem => ?_
    obtain ⟨notice', heq, hnotice⟩ | ⟨hnot, -⟩ := action_cases_of_not_octets hinput hmem
    · exact Action.log.inj heq ▸ hnotice
    · exact absurd rfl (hnot notice)
  unfold afterRead
  cases hinput : input? r.result with
  | none => rfl
  | some input =>
    cases input with
    | octets octets => exact absurd (input?_eq_octets hinput) (h octets)
    | endOfInput | failure | deadline | stop => exact hstep _ nofun

/-! ### The last request -/

theorem not_keepsOpen_of_not_keepsAlive (h : ¬ head.keepsAlive) (stopping : Bool) :
    ¬ keepsOpen s stopping head := by
  rw [keepsOpen, Bool.eq_false_of_not_eq_true h]
  exact Bool.false_ne_true

/-- **Without leave to stay open** a request is the last one, whatever the peer sends behind it. -/
theorem feeds_of_not_keepsAlive (h : ¬ x.head.keepsAlive) (buffer : Bytes) (peer : Peer) :
    LastReply x.head (.ofResult (respond x buffer peer).result)
      (feeds s x buffer peer).trace.sends ∧
      (feeds s x buffer peer).trace.accepted = 0 := by
  induction hn : peer.script.length using Nat.strongRecOn generalizing x buffer peer with
  | ind n ih =>
    have hclosed : ¬ keepsOpen s peer.isStopping x.head := not_keepsOpen_of_not_keepsAlive h _
    have haccepts := @acceptsNone_settle s peer.isStopping x.head buffer x
    cases hfed : (x.feed buffer).progress with
    | answered response =>
      rw [settle_of_not_keepsOpen hfed hclosed] at haccepts
      rw [respond_of_answered hfed, sends_feeds_of_answered hfed, encodeResponse, if_neg hclosed,
        if_neg hclosed, feeds, settle_of_not_keepsOpen hfed hclosed]
      exact ⟨.answered response, accepted_fromTurn_of_ended haccepts rfl⟩
    | refused error =>
      rw [settle_of_refused hfed] at haccepts
      rw [respond_of_refused hfed, sends_feeds_of_refused hfed, Outcome.ofResult,
        if_pos (Exchange.isRefusal_of_feed hfed), feeds, settle_of_refused hfed]
      exact ⟨.refused _ _, accepted_fromTurn_of_ended haccepts rfl⟩
    | waiting y =>
      have hnotices : AcceptsNone ((x.feed buffer).notices.map .log) :=
        acceptsNone_logs not_isRequest_of_mem_feed
      -- what is accepted is accepted after the read
      have haccepted : (feeds s x buffer peer).trace.accepted =
          (afterRead s (.body y (x.feed buffer).rest)
            (peer.read ⟨none, false⟩)).trace.accepted := by
        have hphase : ∀ ending, Phase.body y (x.feed buffer).rest ≠ .ended ending := fun _ =>
          Phase.noConfusion
        rw [feeds, settle_of_waiting hfed, Settled.goOn, fromTurn, runFrom_eq_afterRead hphase rfl,
          Run.after, Run.after, accepted_append, accepted_append, accepted_shown _ hnotices,
          accepted_read, Nat.zero_add, Nat.zero_add]
        rfl
      by_cases hoctets : ∃ octets, (peer.read ⟨none, false⟩).result = .ok (.octets octets)
      · obtain ⟨octets, hread⟩ := hoctets
        have hhead := Exchange.head_of_waiting hfed
        have hlt := hn ▸ Peer.length_read_script_lt hread
        have harrives : afterRead s (.body y (x.feed buffer).rest) (peer.read ⟨none, false⟩) =
            feeds s y ((x.feed buffer).rest ++ octets) (peer.read ⟨none, false⟩).peer := by
          rw [afterRead, hread]
          change arrives s _ _ octets = _
          rw [arrives_of_ne_nil (Peer.ne_nil_of_read rfl hread), step, resume_eq_goOn, feeds]
        rw [respond_of_octets hfed hread, sends_feeds_of_octets hfed hread, haccepted, harrives,
          ← hhead]
        exact ih _ hlt (hhead ▸ h) _ _ rfl
      · have hread := fun octets hread => hoctets ⟨octets, hread⟩
        rw [respond_of_noOctets hfed hread, ofResult_answer?_unread hread,
          sends_feeds_of_not_octets hfed hread, haccepted]
        exact ⟨.unanswered, accepted_afterRead hread⟩

theorem acceptsNone_announce (head : Head) (framing : Framing) :
    ∃ others, announce head framing = .log (.request head.method.token head.target) :: others ∧
      AcceptsNone others := by
  refine ⟨_, rfl, ?_⟩
  split
  · exact acceptsNone_nil.send _
  · exact acceptsNone_nil

/-- A head that does not let the connection stay open is the last one that is accepted. -/
theorem answering_of_not_keepsAlive (h : ¬ head.keepsAlive) (rest : Bytes) (peer : Peer) :
    ∃ (goAhead replies : List Bytes) (later : Trace),
      (goAhead = [] ∨ goAhead = [continueResponse]) ∧
      LastReply head (outcome s head rest peer) replies ∧
      (answering s head rest peer).trace =
        ⟨peer.now, .logged (.request head.method.token head.target)⟩ :: later ∧
      later.sends = goAhead ++ replies ∧ later.accepted = 0 := by
  by_cases hrefusal : ∃ notice status message, Refusal s head notice status message
  · obtain ⟨notice, status, message, hrefusal⟩ := hrefusal
    have haccepts := acceptsNone_reject hrefusal.not_isRequest status message
    refine ⟨[], [(Response.error status message).encode .close false],
      (fromTurn s (reject notice status message) peer).trace, .inl rfl, ?_, ?_, ?_, ?_⟩
    · exact outcome_of_refusal hrefusal ▸ .refused status message
    · rw [answering, answer_of_refusal hrefusal, Settled.goOn, fromTurn_after]
      rfl
    · exact sends_fromTurn_finish _
    · exact accepted_fromTurn_of_ended haccepts rfl
  · obtain ⟨framing, hframing, hlength⟩ := exists_framing_of_not_refusal hrefusal
    obtain ⟨others, hannounce, haccepts⟩ := acceptsNone_announce head framing
    have hx : ¬ (Exchange.start s.echo s.maxBodySize head framing).head.keepsAlive := h
    obtain ⟨hreply, haccepted⟩ := @feeds_of_not_keepsAlive s _ hx rest peer
    refine ⟨(announce head framing).filterMap Action.octets?,
      (feeds s (.start s.echo s.maxBodySize head framing) rest peer).trace.sends,
      shown peer.now others ++ (feeds s (.start s.echo s.maxBodySize head framing) rest peer).trace,
      filterMap_announce_cases head framing, ?_, ?_, ?_, ?_⟩
    · rw [outcome, hframing]
      exact hreply
    · rw [answering, answer_of_framing hframing hlength, Settled.goOn_after, fromTurn_after,
        Run.after, hannounce]
      rfl
    · rw [Trace.sends_append, sends_shown, hannounce]
      rfl
    · rw [accepted_append, accepted_shown _ haccepts, haccepted]

/-! ### Heads that ask to close -/

/-- What is left of a run after the head of its last request. -/
structure Run.PartsWith (r : Run) (head : Head) (outcome : Outcome) (after : Trace) : Prop where
  /-- The last reply is sent, after the go-ahead or without it, unless a send fails. -/
  sends : ∃ goAhead replies, (goAhead = [] ∨ goAhead = [continueResponse]) ∧
    LastReply head outcome replies ∧ Trace.sends after <+: goAhead ++ replies ∧
      ((∀ stamped ∈ after, ∀ kind, stamped.event ≠ .sendFailed kind) →
        Trace.sends after = goAhead ++ replies)
  /-- With the response the connection is closed, and the run is over. -/
  ends : ∀ {front back : Trace} {time : Nat} {octets : Bytes},
    after = front ++ ⟨time, .sent octets⟩ :: back → octets ≠ continueResponse →
      (∀ stamped ∈ back, stamped = ⟨time, .closed⟩ ∨
        stamped = ⟨time, .logged .closingAfterResponse⟩) ∧ r.ending = some .closed ∧ r.time = time
  /-- No other head is accepted. -/
  last : Trace.accepted after = 0

/-- What is left of a run parts with the peer also if it is cut short by a send that fails. -/
theorem partsWith_of_after {failure? : Option SendFailure} {before after later : Trace}
    {stamped : Stamped} {outcome : Outcome} {goAhead replies : List Bytes}
    (h : (run s failure? p).trace = before ++ stamped :: after)
    (hgoAhead : goAhead = [] ∨ goAhead = [continueResponse])
    (hreplies : LastReply head outcome replies)
    (hlater : after = later ∨ ∃ middle time octets back kind,
      later = middle ++ ⟨time, .sent octets⟩ :: back ∧ after = middle ++ [⟨time, .sendFailed kind⟩])
    (hsends : later.sends = goAhead ++ replies) (haccepted : later.accepted = 0) :
    (run s failure? p).PartsWith head outcome after := by
  have hprefix : after.sends <+: goAhead ++ replies := by
    rw [← hsends]
    obtain rfl | ⟨middle, time, octets, back, kind, rfl, rfl⟩ := hlater
    · exact List.prefix_rfl
    · rw [Trace.sends_append, Trace.sends_append]
      exact (List.prefix_append_right_inj _).2 List.nil_prefix
  refine ⟨⟨goAhead, replies, hgoAhead, hreplies, hprefix, fun hfailed => ?_⟩, ?_, ?_⟩
  · obtain rfl | ⟨middle, time, octets, back, kind, -, rfl⟩ := hlater
    · exact hsends
    · exact absurd rfl (hfailed _ List.mem_append_cons_self kind)
  · rintro front back time octets rfl hne
    -- what is sent is the go-ahead or the reply, which closes
    have hmem : octets ∈ goAhead ++ replies := by
      refine hprefix.subset ?_
      rw [Trace.sends_append]
      exact List.mem_append_right _ List.mem_cons_self
    have hcloses : Response.Closes octets := by
      obtain hmem | hmem := List.mem_append.1 hmem
      · obtain rfl | rfl := hgoAhead
        · cases hmem
        · exact absurd (List.mem_singleton.1 hmem) hne
      · exact hreplies.closes octets hmem
    rw [← List.cons_append, ← List.append_assoc] at h
    exact run_of_closes h hcloses
  · obtain rfl | ⟨middle, time, octets, back, kind, rfl, rfl⟩ := hlater
    · exact haccepted
    · rw [accepted_append, Nat.add_eq_zero_iff] at haccepted ⊢
      exact ⟨haccepted.1, rfl⟩

/-- **A head that asks to close** is the last one of its connection, whatever else it says: it is
answered with a response that closes, or refused, or left without an answer, and the connection ends
with that. Only a head of version 1.0 that asks to stay as well is treated as if it did not ask to
close: its response keeps the connection open, unless the server keeps none. -/
theorem partsWith_of_run {failure? : Option SendFailure} {before after : Trace} {time : Nat}
    {method target : String}
    (h : (run s failure? p).trace = before ++ ⟨time, .logged (.request method target)⟩ :: after) :
    (∃ buffer head size peer, Head.parse s.maxHeaderSize buffer = .ok (head, size) ∧
      head.method.token = method ∧ head.target = target ∧ peer.now = time ∧
        run s none p = (answering s head (buffer.drop size) peer).after before) ∧
    ∀ head rest peer, run s none p = (answering s head rest peer).after before →
      (head.AsksToClose → (head.version = .http10 → ¬ head.AsksToStay) →
        (run s failure? p).PartsWith head (outcome s head rest peer) after) ∧
      (head.AsksToClose → head.version = .http10 → head.AsksToStay → ∀ response,
        outcome s head rest peer = .answered response → ∃ goAhead stopping later,
          (goAhead = [] ∨ goAhead = [continueResponse]) ∧
            (answering s head rest peer).trace.sends =
              goAhead ++ response.encode
                (if s.keepAliveEnabled && !stopping then
                  .keepAlive (.ofMilliseconds s.keepAliveTimeout)
                else .close) (head.method = .head) :: later) := by
  have hlogged : ∀ kind, Event.logged (.request method target) ≠ .sendFailed kind := fun _ =>
    Event.noConfusion
  obtain ⟨after', h'⟩ := exists_of_failing h hlogged
  refine ⟨exists_answering_of_run h', fun head rest peer hrun => ⟨fun hclose hstay => ?_,
    fun _ hversion hstay response houtcome => ?_⟩⟩
  · have hkept : ¬ head.keepsAlive := fun hkept =>
      have hboth := (Head.keepsAlive_iff_of_asksToClose hclose).1 hkept
      hstay hboth.1 hboth.2
    obtain ⟨goAhead, replies, later, hgoAhead, hreplies, htrace, hsends, haccepted⟩ :=
      answering_of_not_keepsAlive (s := s) hkept rest peer
    have hafter : after' = later := by
      rw [hrun, Run.after, htrace] at h'
      exact (List.cons.inj (List.append_cancel_left h')).2.symm
    exact partsWith_of_after h hgoAhead hreplies
      (hafter ▸ after_cases_of_failing h h' hlogged) hsends
      haccepted
  · have hkept : head.keepsAlive = true := Head.keepsAlive_iff.2 (.inr ⟨hversion, hstay⟩)
    obtain ⟨goAhead, hgoAhead, hsame⟩ := replies_answering s head rest peer
    obtain ⟨sends, _, hreplies, hsends, -⟩ := hsame head ⟨rfl, rfl, rfl, fun _ _ _ => rfl⟩
    rw [houtcome] at hreplies
    cases hreplies with
    | answered stopping response later =>
      refine ⟨goAhead, stopping, later, hgoAhead, ?_⟩
      rw [hsends, encodeResponse, keepsOpen, hkept, Bool.true_and]

/-- A head of version 1.1 that asks to close in the second of its two fields. -/
def partingHead : Head :=
  ⟨.get, "/", .http11, [⟨"Connection", Utf8.encode "x"⟩,
    ⟨"Connection", Utf8.encode "Keep-Alive , CLOSE"⟩]⟩

/-- A request with that head, and another one behind it. -/
def partingRequests : Bytes :=
  Utf8.encode "GET / HTTP/1.1\r\nConnection: x\r\nConnection: Keep-Alive , CLOSE\r\n\r\n" ++
    Utf8.encode "GET / HTTP/1.1\r\n\r\n"

/-- A client that sends these requests. -/
def partingClient : Peer := { script := [.send partingRequests] }

/-- It is answered once, and the connection ends with that. -/
theorem partsWith_of_run_partingClient :
    (run {} none partingClient).trace = [⟨0, .received 0⟩] ++
        ⟨0, .logged (.request "GET" "/")⟩ :: (run {} none partingClient).trace.drop 2 ∧
      ∃ size peer, Head.parse 16384 partingRequests = .ok (partingHead, size) ∧
        run {} none partingClient =
          (answering {} partingHead (partingRequests.drop size) peer).after [⟨0, .received 0⟩] ∧
        outcome {} partingHead (partingRequests.drop size) peer =
          .answered (.ok (Utf8.encode "hello undefined\n")) ∧
        (run {} none partingClient).PartsWith partingHead
          (.answered (.ok (Utf8.encode "hello undefined\n")))
          ((run {} none partingClient).trace.drop 2) := by
  have htrace : (run {} none partingClient).trace = [⟨0, .received 0⟩] ++
      ⟨0, .logged (.request "GET" "/")⟩ :: (run {} none partingClient).trace.drop 2 := by
    decide +kernel
  have hparse : Head.parse 16384 partingRequests = .ok (partingHead, 65) := by decide +kernel
  have hrun : run {} none partingClient = (answering {} partingHead (partingRequests.drop 65)
      { script := [], index := 1 }).after [⟨0, .received 0⟩] := by decide +kernel
  have houtcome : outcome {} partingHead (partingRequests.drop 65) { script := [], index := 1 } =
      .answered (.ok (Utf8.encode "hello undefined\n")) := by decide +kernel
  have hclose : partingHead.AsksToClose := Fields.hasToken_iff.1 (by decide +kernel)
  have hparts := (((partsWith_of_run htrace).2 _ _ _ hrun).1 hclose) nofun
  exact ⟨htrace, 65, _, hparse, hrun, houtcome, houtcome ▸ hparts⟩

/-- A client of version 1.0 that asks to stay and to close, and sends another request behind that
one. -/
def undecidedClient : Peer where
  script := [.send (Utf8.encode
    "GET / HTTP/1.0\r\nConnection: keep-alive, close\r\n\r\nGET / HTTP/1.0\r\n\r\n")]

/-- It is kept, and both of its requests are answered. -/
theorem sends_run_undecidedClient :
    (∃ head size, Head.parse 16384 (Utf8.encode
        "GET / HTTP/1.0\r\nConnection: keep-alive, close\r\n\r\nGET / HTTP/1.0\r\n\r\n") =
          .ok (head, size) ∧ head.version = .http10 ∧ head.AsksToClose) ∧
      (run {} none undecidedClient).trace.sends =
        [(Response.ok (Utf8.encode "hello undefined\n")).encode
          (.keepAlive (.ofMilliseconds 10000)) false,
          (Response.ok (Utf8.encode "hello undefined\n")).encode .close false] := by
  refine ⟨⟨⟨.get, "/", .http10, [⟨"Connection", Utf8.encode "keep-alive, close"⟩]⟩, 49, ?_, rfl,
    ?_⟩, ?_⟩
  · decide +kernel
  · exact Fields.hasToken_iff.1 (by decide +kernel)
  · decide +kernel

end Session

end HttpEcho
