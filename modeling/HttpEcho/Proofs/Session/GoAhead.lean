import HttpEcho.Proofs.Body.Declared
import HttpEcho.Proofs.Session.Outcome

/-!
# Go-aheads

A client that waits for a go-ahead gets it exactly if a body is to follow that is not declared as
too large (`Head.Promised`): once, where the head is accepted, and before more is read
(`Session.goAhead_of_run`). What is sent after that, up to the next head that is accepted, are
responses (`Trace.SendsOnly`), by induction on the moves of the peer, both while a body is read
(`Session.sendsOnly_feeds`) and between two requests (`Session.sendsOnly_runFrom`). None of them
reports a body as too large if its length was declared and accepted, for such a body is never
refused.
-/

namespace HttpEcho

/-- The client waits for a go-ahead, and a body is to follow that is not declared as too large. -/
structure Head.Promised (limit : Nat) (head : Head) : Prop where
  version_eq : head.version = .http11
  expects : ∃ value text, (head.fields.values "expect").head? = some value ∧
    Utf8.decode? value = some text ∧
      Text.sameIgnoringCase (Text.trim text) "100-continue".toList
  follows : ∃ framing, head.framing = .ok framing ∧ framing ≠ .empty ∧
    ∀ n, framing = .length n → n ≤ limit

/-- The go-ahead is expected by a head of version 1.1 whose first `Expect` field says so. -/
theorem Head.expectsContinue_iff (head : Head) : head.expectsContinue ↔ head.version = .http11 ∧
    ∃ value text, (head.fields.values "expect").head? = some value ∧
      Utf8.decode? value = some text ∧
        Text.sameIgnoringCase (Text.trim text) "100-continue".toList := by
  rw [expectsContinue, Bool.and_eq_true, decide_eq_true_iff, Option.any_eq_true, Fields.text?,
    Fields.value?_eq_head?]
  simp only [Option.bind_eq_some_iff]
  refine and_congr_right fun _ => ⟨?_, ?_⟩
  · rintro ⟨text, ⟨value, hvalue, htext⟩, hsame⟩
    exact ⟨value, text, hvalue, htext, hsame⟩
  · rintro ⟨value, text, hvalue, htext, hsame⟩
    exact ⟨text, ⟨value, hvalue, htext⟩, hsame⟩

/-- A response on the wire with a status. -/
def Response.HasStatus (status : Status) (octets : Bytes) : Prop :=
  ∃ (r : Response) (p : Persistence) (headOnly : Bool), r.status = status ∧
    octets = r.encode p headOnly

/-- The event says that a head is accepted. -/
def Event.isRequest : Event → Bool
  | .logged notice => notice.isRequest
  | _ => false

namespace Trace

/-- What happens before the next head is accepted. -/
def untilRequest (trace : Trace) : Trace := trace.takeWhile fun stamped => !stamped.event.isRequest

/-- Before the next head is accepted, nothing is sent but responses with a status of a kind. -/
def SendsOnly (kind : Status → Prop) (trace : Trace) : Prop :=
  ∀ octets ∈ trace.untilRequest.sends, ∃ status, kind status ∧ Response.HasStatus status octets

variable {kind : Status → Prop} {trace trace' : Trace} {octets : Bytes}

theorem sendsOnly_of_sends
    (h : ∀ octets ∈ trace.sends, ∃ status, kind status ∧ Response.HasStatus status octets) :
    trace.SendsOnly kind := by
  have hsublist : trace.untilRequest.sends.Sublist trace.sends :=
    ((List.takeWhile_sublist _).map _).filterMap _
  exact fun octets hmem => h octets (hsublist.mem hmem)

theorem sendsOnly_of_sends_eq_nil (h : trace.sends = []) : trace.SendsOnly kind :=
  sendsOnly_of_sends fun _ hmem => absurd (h ▸ hmem) List.not_mem_nil

theorem SendsOnly.append (h : trace.SendsOnly kind) (h' : trace'.SendsOnly kind) :
    SendsOnly kind (trace ++ trace') := by
  intro octets hmem
  rw [untilRequest, List.takeWhile_append] at hmem
  split at hmem
  case isTrue hlength =>
    have hall : trace.untilRequest = trace := (List.takeWhile_prefix _).eq_of_length hlength
    rw [sends_append] at hmem
    exact (List.mem_append.1 hmem).elim (fun hmem => h octets (hall.symm ▸ hmem)) (h' octets)
  case isFalse => exact h octets hmem

/-- Nothing is sent before a head that is accepted right away. -/
theorem sendsOnly_request {time : Nat} {method target : String} (trace : Trace) :
    SendsOnly kind (⟨time, .logged (.request method target)⟩ :: trace) :=
  fun _ hmem => absurd hmem List.not_mem_nil

/-- No response that is sent before the next head is accepted is a go-ahead. -/
theorem SendsOnly.ne_continueResponse (h : trace.SendsOnly kind)
    (hmem : octets ∈ trace.untilRequest.sends) : octets ≠ continueResponse := by
  obtain ⟨status, -, r, p, headOnly, -, hencode⟩ := h octets hmem
  exact hencode ▸ Response.encode_ne_continueResponse r p headOnly

/-- A status that is ruled out is not sent before the next head is accepted. -/
theorem SendsOnly.not_hasStatus {status : Status} (h : trace.SendsOnly (· ≠ status))
    (hmem : octets ∈ trace.untilRequest.sends) : ¬ Response.HasStatus status octets := by
  obtain ⟨status', hne, r, p, headOnly, hstatus, hencode⟩ := h octets hmem
  rintro ⟨r', p', headOnly', hstatus', hencode'⟩
  have heq := Response.status_eq_of_encode_eq (hencode.symm.trans hencode')
  exact hne (hstatus.symm.trans (heq.trans hstatus'))

end Trace

namespace Session

open Connection

variable {s : Settings} {kind : Status → Prop} {peer : Peer} {phase : Phase} {r : Reading}
    {turn : Turn}
  {x : Exchange} {buffer : Bytes}

theorem sendsOnly_shown {now : Nat} {actions : List Action}
    (h : ∀ octets ∈ actions.filterMap Action.octets?,
      ∃ status, kind status ∧ Response.HasStatus status octets) :
    (shown now actions).SendsOnly kind :=
  Trace.sendsOnly_of_sends ((sends_shown now actions).symm ▸ h)

theorem sendsOnly_reject {now : Nat} {notice : Notice} {status : Status} {message : String}
    (h : kind status) : (shown now (reject notice status message).actions).SendsOnly kind :=
  sendsOnly_shown
    (List.forall_mem_singleton.2 ⟨status, h, .error status message, .close, false, rfl, rfl⟩)

/-- What is sent from a turn on is sent in it or after it. -/
theorem sendsOnly_fromTurn (hactions : (shown peer.now turn.actions).SendsOnly kind)
    (hphase : (runFrom s none turn.phase 0 peer).trace.SendsOnly kind) :
    (fromTurn s turn peer).trace.SendsOnly kind :=
  hactions.append hphase

/-- Nothing is sent once the connection is over. -/
theorem sendsOnly_ended {ending : Ending} :
    (runFrom s none (.ended ending) 0 peer).trace.SendsOnly kind := by
  rw [runFrom]
  exact Trace.sendsOnly_of_sends_eq_nil rfl

theorem exists_trace_goOn (s : Settings) (peer : Peer) (settled : Settled) :
    ∃ later, (fromTurn s (settled.goOn s peer.now peer.isStopping) peer).trace =
      shown peer.now settled.actions ++ later := by
  cases settled with
  | turn turn => exact ⟨_, rfl⟩
  | next actions rest =>
    rw [Settled.goOn_next, fromTurn_after]
    exact ⟨_, rfl⟩

/-! ### Between two requests -/

section Errors

variable (hkind : ∀ status, status ≠ .payloadTooLarge → kind status)

include hkind

/-- When something other than octets comes, only a timeout is reported. -/
theorem sendsOnly_step {now : Nat} {stopping : Bool} {input : Input}
    (hinput : ∀ octets, input ≠ .octets octets) :
    (shown now (step s now stopping phase input).actions).SendsOnly kind := by
  cases input with
  | octets octets => exact absurd rfl (hinput octets)
  | endOfInput | failure | stop => cases phase <;> exact Trace.sendsOnly_of_sends_eq_nil rfl
  | deadline =>
    cases phase with
    | head => exact sendsOnly_reject (hkind _ nofun)
    | idle | body | ended => exact Trace.sendsOnly_of_sends_eq_nil rfl

/-- Only octets lead to a response. -/
theorem sendsOnly_afterRead
    (h : ∀ octets, r.result = .ok (.octets octets) →
      (arrives s phase r.peer octets).trace.SendsOnly kind) :
    (afterRead s phase r).trace.SendsOnly kind := by
  unfold afterRead
  cases hinput : input? r.result with
  | none => exact Trace.sendsOnly_of_sends_eq_nil rfl
  | some input =>
    cases input with
    | octets octets => exact h octets (input?_eq_octets hinput)
    | endOfInput | failure | deadline | stop => exact sendsOnly_step hkind nofun

/-- Before the next head is accepted, a buffer that is served leads to its report, or to a wait for
more. -/
theorem sendsOnly_fromTurn_serve
    (hphase : ∀ deadline buffer,
      (runFrom s none (.head deadline buffer) 0 peer).trace.SendsOnly kind)
    (deadline : Nat) (buffer : Bytes) :
    (fromTurn s (serve s peer.now peer.isStopping deadline buffer) peer).trace.SendsOnly kind := by
  cases hparse : Head.parse s.maxHeaderSize buffer with
  | error error =>
    by_cases hincomplete : error = .incomplete
    · subst hincomplete
      rw [serve_of_incomplete hparse]
      exact sendsOnly_fromTurn (Trace.sendsOnly_of_sends_eq_nil rfl) (hphase deadline buffer)
    · rw [serve_of_error hparse hincomplete]
      have hstatus : kind error.status := hkind _ (by cases error <;> exact nofun)
      exact sendsOnly_fromTurn (sendsOnly_reject hstatus) sendsOnly_ended
  | ok parsed =>
    obtain ⟨head, size⟩ := parsed
    rw [serve_of_ok hparse]
    obtain ⟨others, hactions, -⟩ := actions_answer s peer.isStopping head (buffer.drop size)
    obtain ⟨later, htrace⟩ :=
      exists_trace_goOn s peer (answer s peer.isStopping head (buffer.drop size))
    rw [htrace, hactions]
    exact Trace.sendsOnly_request _

/-- **Between two requests** errors are reported, if anything is sent. -/
theorem sendsOnly_runFrom (hbegun : phase.begun?.isSome) (peer : Peer) :
    (runFrom s none phase 0 peer).trace.SendsOnly kind := by
  induction hn : peer.script.length using Nat.strongRecOn generalizing phase peer with
  | ind n ih =>
    obtain ⟨begun, hbegun⟩ := Option.isSome_iff_exists.1 hbegun
    have hphase : ∀ ending, phase ≠ .ended ending := by
      rintro ending rfl
      cases hbegun
    rw [runFrom_eq_afterRead hphase rfl]
    refine (Trace.sendsOnly_of_sends_eq_nil (Peer.sends_read _ _)).append ?_
    refine sendsOnly_afterRead hkind fun octets hread => ?_
    obtain ⟨deadline, hdue⟩ :=
      @exists_due?_of_begun? s (peer.read (patience phase)).peer.now phase _ hbegun
    rw [arrives_of_ne_nil (Peer.ne_nil_of_read rfl hread), step_of_begun? hbegun hdue]
    refine sendsOnly_fromTurn_serve hkind (fun deadline buffer => ?_) _ _
    exact ih _ (hn ▸ Peer.length_read_script_lt hread) rfl _ rfl

/-- What comes after a response. -/
theorem sendsOnly_goOn_next (peer : Peer) (rest : Bytes) :
    (fromTurn s ((Settled.next [] rest).goOn s peer.now peer.isStopping)
      peer).trace.SendsOnly kind := by
  cases rest with
  | nil =>
    exact sendsOnly_fromTurn (Trace.sendsOnly_of_sends_eq_nil rfl)
      (sendsOnly_runFrom hkind rfl peer)
  | cons b rest =>
    exact sendsOnly_fromTurn_serve hkind (fun deadline buffer => sendsOnly_runFrom hkind rfl peer)
      (peer.now + s.headersTimeout) (b :: rest)

/-! ### While a body is read -/

/-- **Up to the next request** nothing is sent for a request but its response or its refusal, and
then reports of errors. -/
theorem sendsOnly_feeds (x : Exchange) (buffer : Bytes) (peer : Peer)
    (hrefused : ∀ error, (respond x buffer peer).result = some (.error error) → error.isRefusal →
      kind error.status) : (feeds s x buffer peer).trace.SendsOnly kind := by
  induction hn : peer.script.length using Nat.strongRecOn generalizing x buffer peer with
  | ind n ih =>
    cases hfed : (x.feed buffer).progress with
    | answered response =>
      have hresponse : ∃ status, kind status ∧
          Response.HasStatus status (encodeResponse s peer.isStopping x.head response) := by
        refine ⟨response.status, hkind _ ?_, response, _, _, rfl, rfl⟩
        rcases Exchange.status_of_feed hfed with hstatus | hstatus
        · exact hstatus ▸ nofun
        · exact hstatus ▸ nofun
      have hshown : (shown peer.now ((x.feed buffer).notices.map Action.log ++
          [.send (encodeResponse s peer.isStopping x.head response)])).SendsOnly kind := by
        refine sendsOnly_shown ?_
        rw [filterMap_logs_append]
        exact List.forall_mem_singleton.2 hresponse
      rw [feeds]
      by_cases hopen : keepsOpen s peer.isStopping x.head
      · rw [settle_of_keepsOpen hfed hopen, Settled.goOn_next, fromTurn_after]
        exact hshown.append (sendsOnly_goOn_next hkind peer _)
      · rw [settle_of_not_keepsOpen hfed hopen, Settled.goOn, fromTurn_after]
        refine hshown.append (sendsOnly_fromTurn ?_ sendsOnly_ended)
        exact Trace.sendsOnly_of_sends_eq_nil rfl
    | refused error =>
      have hstatus : kind error.status := by
        refine hrefused error ?_ (Exchange.isRefusal_of_feed hfed)
        rw [respond_of_refused hfed]
      rw [feeds, settle_of_refused hfed, Settled.goOn, fromTurn_after]
      refine (sendsOnly_shown ?_).append (sendsOnly_fromTurn (sendsOnly_reject hstatus)
        sendsOnly_ended)
      rw [filterMap_logs]
      exact List.forall_mem_nil _
    | waiting y =>
      rw [feeds, settle_of_waiting hfed, Settled.goOn]
      refine sendsOnly_fromTurn (sendsOnly_shown ?_) ?_
      · rw [filterMap_logs]
        exact List.forall_mem_nil _
      have hphase : ∀ ending, Phase.body y (x.feed buffer).rest ≠ .ended ending := fun _ =>
        Phase.noConfusion
      rw [runFrom_eq_afterRead hphase rfl]
      refine (Trace.sendsOnly_of_sends_eq_nil (Peer.sends_read _ _)).append ?_
      refine sendsOnly_afterRead hkind fun octets hread => ?_
      rw [arrives_of_ne_nil (Peer.ne_nil_of_read rfl hread), step, resume_eq_goOn]
      -- what comes of the request comes of the exchange that goes on with the octets
      refine ih _ (hn ▸ Peer.length_read_script_lt hread) _ _ _ (fun error herror => ?_) rfl
      refine hrefused error ?_
      rw [respond_of_octets hfed hread]
      exact herror

end Errors

/-! ### Bodies of declared length -/

/-- A body for which there is room is not refused in the end. -/
theorem Source.not_isRefusal_last {source : Source} (h : source.body.Fits) {error : BodyError}
    (herror : source.last.result = .failed error) : ¬ error.isRefusal := by
  induction hn : source.measure using Nat.strongRecOn generalizing source with
  | ind n ih =>
    by_cases hchunk : ∃ octets, source.next.result = .chunk octets
    · obtain ⟨octets, hchunk⟩ := hchunk
      rw [last_of_chunk hchunk] at herror
      exact ih _ (hn ▸ measure_next hchunk) (fits_next h).1 herror rfl
    · rw [last_of_not_chunk (not_exists.1 hchunk)] at herror
      exact (fits_next h).2 error herror

/-- A body for which there is room is not refused. -/
theorem not_isRefusal_respond (h : x.body.Fits) {error : BodyError}
    (herror : (respond x buffer peer).result = some (.error error)) : ¬ error.isRefusal := by
  obtain ⟨-, -, chunks, -, hends, -⟩ := respond_ends x buffer peer
  rw [herror] at hends
  generalize hlast : (Source.last ⟨x.body, buffer, peer⟩).result = last at hends
  cases hends with
  | failed => exact Source.not_isRefusal_last h hlast

/-! ### Requests -/

/-- The go-ahead, if it is due. -/
inductive GoesAhead (limit : Nat) (head : Head) (time : Nat) : Trace → Prop
  | promised : head.Promised limit → GoesAhead limit head time [⟨time, .sent continueResponse⟩]
  | silent : ¬ head.Promised limit → GoesAhead limit head time []

theorem goesAhead_announce {framing : Framing} {head : Head} {limit : Nat} (time : Nat)
    (h : head.framing = .ok framing) (hlength : ∀ n, framing = .length n → n ≤ limit) :
    ∃ goAhead, GoesAhead limit head time goAhead ∧ shown time (announce head framing) =
      ⟨time, .logged (.request head.method.token head.target)⟩ :: goAhead := by
  rw [announce]
  by_cases hdue : head.expectsContinue ∧ framing ≠ .empty
  · obtain ⟨hversion, hexpects⟩ := head.expectsContinue_iff.1 hdue.1
    refine ⟨_, .promised ⟨hversion, hexpects, framing, h, hdue.2, hlength⟩, ?_⟩
    rw [if_pos]
    · rfl
    · rw [hdue.1, decide_eq_true hdue.2]
      rfl
  · refine ⟨[], .silent fun hpromised => hdue ⟨?_, ?_⟩, ?_⟩
    · exact head.expectsContinue_iff.2 ⟨hpromised.version_eq, hpromised.expects⟩
    · obtain ⟨framing', hframing', hne, -⟩ := hpromised.follows
      cases h.symm.trans hframing'
      exact hne
    · rw [if_neg]
      · rfl
      · rwa [Bool.and_eq_true, decide_eq_true_iff]

/-- What the first call for a body of declared length says about its size. -/
theorem Source.next_of_length (n limit : Nat) (buffer : Bytes) (peer : Peer) :
    (limit < n ∧
      (next ⟨.ofFraming (.length n) limit, buffer, peer⟩).result = .failed (.tooLarge limit)) ∨
    (n ≤ limit ∧ ∀ limit',
      (next ⟨.ofFraming (.length n) limit, buffer, peer⟩).result ≠ .failed (.tooLarge limit')) := by
  by_cases hle : n ≤ limit
  · have hfits := @fits_next ⟨.ofFraming (.length n) limit, buffer, peer⟩
      (Body.fits_ofFraming_length hle)
    exact .inr ⟨hle, fun limit' herror => hfits.2 _ herror rfl⟩
  · have hlt := Nat.lt_of_not_le hle
    have hnext := (@next_of_lt ⟨.ofFraming (.length n) limit, buffer, peer⟩ n rfl
      (Nat.lt_of_lt_of_eq hlt (Nat.zero_add n).symm) 0).2
    exact .inl ⟨hlt, congrArg Call.result hnext⟩

theorem trace_fromTurn_reject (notice : Notice) (status : Status) (message : String) :
    (fromTurn s (reject notice status message) peer).trace =
      shown peer.now (reject notice status message).actions := by
  rw [fromTurn, reject, finish, runFrom]
  exact List.append_nil _

/-- **Where a head is accepted**, the go-ahead is sent if it is due, and no second one for the same
request. A body that is declared as too large is rejected as reading it would be, and one that is
not is not reported as too large. -/
theorem trace_answering (s : Settings) (head : Head) (rest : Bytes) (peer : Peer) :
    ∃ goAhead later, GoesAhead s.maxBodySize head peer.now goAhead ∧
      (answering s head rest peer).trace =
        ⟨peer.now, .logged (.request head.method.token head.target)⟩ :: (goAhead ++ later) ∧
      later.SendsOnly (fun _ => True) ∧
      ∀ n, head.framing = .ok (.length n) →
        (s.maxBodySize < n →
          later = shown peer.now (reject (.declaredTooLarge n (.tooLarge s.maxBodySize))
            (BodyError.tooLarge s.maxBodySize).status
              (BodyError.tooLarge s.maxBodySize).message).actions) ∧
        (n ≤ s.maxBodySize → later.SendsOnly (· ≠ .payloadTooLarge)) := by
  by_cases hrefusal : ∃ notice status message, Refusal s head notice status message
  · obtain ⟨notice, status, message, hrefusal⟩ := hrefusal
    refine ⟨[], shown peer.now (reject notice status message).actions, .silent ?_, ?_, ?_, ?_⟩
    · rintro ⟨-, -, framing, hframing, -, hlength⟩
      cases hrefusal with
      | framing herror => cases hframing.symm.trans herror
      | @tooLarge n hn hlt =>
        cases hframing.symm.trans hn
        exact absurd (hlength n rfl) (Nat.not_le.2 hlt)
    · rw [answering, answer_of_refusal hrefusal, Settled.goOn, fromTurn_after, Run.after,
        trace_fromTurn_reject]
      rfl
    · exact sendsOnly_reject trivial
    · intro n hn
      cases hrefusal with
      | framing herror => cases hn.symm.trans herror
      | tooLarge hn' hlt =>
        cases hn.symm.trans hn'
        exact ⟨fun _ => rfl, fun hle => absurd hlt (Nat.not_lt.2 hle)⟩
  · obtain ⟨framing, hframing, hlength⟩ := exists_framing_of_not_refusal hrefusal
    obtain ⟨goAhead, hgoAhead, hannounce⟩ := goesAhead_announce peer.now hframing hlength
    refine ⟨goAhead, (feeds s (.start s.echo s.maxBodySize head framing) rest peer).trace,
      hgoAhead, ?_, sendsOnly_feeds (fun _ _ => trivial) _ _ _ fun _ _ _ => trivial, ?_⟩
    · rw [answering, answer_of_framing hframing hlength, Settled.goOn_after, fromTurn_after,
        Run.after, hannounce]
      rfl
    · intro n hn
      cases hframing.symm.trans hn
      refine ⟨fun hlt => absurd (hlength n rfl) (Nat.not_le.2 hlt), fun hle => ?_⟩
      refine sendsOnly_feeds (fun _ hne => hne) _ _ _ fun error herror hrefused => ?_
      exact absurd hrefused (not_isRefusal_respond (Body.fits_ofFraming_length hle) herror)

/-- **Go-aheads and declared lengths.** In a run without failures to send, the go-ahead is sent for
a request whose head is accepted exactly if it is due: right then, before anything else happens, and
not again. A body of declared length is rejected by its declaration exactly if the first call for it
would refuse it as too large, whatever is at hand and to come, and with the same report as if it had
been read; otherwise nothing that is sent for it says that it is too large. -/
theorem goAhead_of_run {p : Peer} {before after : Trace} {time : Nat} {method target : String}
    (h : (run s none p).trace = before ++ ⟨time, .logged (.request method target)⟩ :: after) :
    ∃ buffer head size peer goAhead later,
      Head.parse s.maxHeaderSize buffer = .ok (head, size) ∧ head.method.token = method ∧
        head.target = target ∧ peer.now = time ∧
      run s none p = (answering s head (buffer.drop size) peer).after before ∧
      after = goAhead ++ later ∧ GoesAhead s.maxBodySize head time goAhead ∧
      (∀ octets ∈ later.untilRequest.sends, octets ≠ continueResponse) ∧
      ∀ n, head.framing = .ok (.length n) → ∀ buffer' peer',
        let first := (Source.next ⟨.ofFraming (.length n) s.maxBodySize, buffer', peer'⟩).result
        let error := BodyError.tooLarge s.maxBodySize
        (s.maxBodySize < n ∧ first = .failed error ∧
          later = shown time (reject (.declaredTooLarge n error) error.status
            error.message).actions ∧
            later.sends = (feeds s (.start s.echo s.maxBodySize head (.length n)) (buffer.drop size)
              peer).trace.sends) ∨
        (n ≤ s.maxBodySize ∧ (∀ limit, first ≠ .failed (.tooLarge limit)) ∧
          ∀ octets ∈ later.untilRequest.sends, ¬ Response.HasStatus .payloadTooLarge octets) := by
  obtain ⟨buffer, head, size, peer, hparse, htoken, htarget, rfl, hrun⟩ := exists_answering_of_run h
  obtain ⟨goAhead, later, hgoAhead, htrace, honly, hlength⟩ :=
    trace_answering s head (buffer.drop size) peer
  have hafter : after = goAhead ++ later := by
    rw [hrun, Run.after, htrace] at h
    exact (List.cons.inj (List.append_cancel_left h)).2.symm
  refine ⟨buffer, head, size, peer, goAhead, later, hparse, htoken, htarget, rfl, hrun, hafter,
    hgoAhead, fun octets hmem => honly.ne_continueResponse hmem, fun n hn buffer' peer' => ?_⟩
  obtain ⟨hrejected, haccepted⟩ := hlength n hn
  obtain ⟨hlt, hfirst⟩ | ⟨hle, hfirst⟩ := Source.next_of_length n s.maxBodySize buffer' peer'
  · refine .inl ⟨hlt, hfirst, hrejected hlt, ?_⟩
    rw [hrejected hlt, sends_feeds_of_refused (Exchange.feed_of_tooLarge hlt), sends_shown]
    rfl
  · exact .inr ⟨hle, hfirst, fun octets hmem => (haccepted hle).not_hasStatus hmem⟩

/-- A client that waits for the go-ahead before it sends a body of two octets. -/
def waitingClient : Peer where
  script := [
    .send (Utf8.encode "PUT / HTTP/1.1\r\nExpect: 100-continue\r\nContent-Length: 2\r\n\r\n"),
    .send (Utf8.encode "ab")]

/-- It gets the go-ahead, and only once. -/
theorem goAhead_of_run_waitingClient :
    (run {} none waitingClient).trace = [⟨0, .received 0⟩] ++
        ⟨0, .logged (.request "PUT" "/")⟩ :: (run {} none waitingClient).trace.drop 2 ∧
      ∃ later : Trace, (run {} none waitingClient).trace.drop 2 =
        ⟨0, .sent continueResponse⟩ :: later ∧
          ∀ octets ∈ later.untilRequest.sends, octets ≠ continueResponse := by
  have htrace : (run {} none waitingClient).trace = [⟨0, .received 0⟩] ++
      ⟨0, .logged (.request "PUT" "/")⟩ :: (run {} none waitingClient).trace.drop 2 := by
    decide +kernel
  have hsent : continueResponse ∈
      Trace.sends (Trace.untilRequest ((run {} none waitingClient).trace.drop 2)) := by
    decide +kernel
  obtain ⟨_, _, _, _, goAhead, later, -, -, -, -, -, hafter, hgoAhead, honly, -⟩ :=
    goAhead_of_run htrace
  refine ⟨htrace, later, ?_, honly⟩
  cases hgoAhead with
  | promised => exact hafter
  | silent =>
    rw [hafter] at hsent
    exact absurd rfl (honly _ hsent)

end Session

end HttpEcho
