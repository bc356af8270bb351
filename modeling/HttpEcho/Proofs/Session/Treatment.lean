import HttpEcho.Proofs.Session.Failures
import HttpEcho.Proofs.Session.Outcome

/-!
# What a response depends on

Two heads of one version and one class of method in which six fields have the same values are
interchangeable: whichever of the two is read, everything that is sent is the same
(`Session.sends_run_of_alike`). What is sent for a HEAD request is what would be sent for a request
with another method but GET, where the response has no body, as long as it is the response of the
request; if the request is refused, the report of that has its body all the same
(`Session.sends_of_head_request`).
-/

namespace HttpEcho.Session

open Connection

variable {s : Settings} {p peer : Peer} {trace : Trace} {phase : Phase} {r : Reading}
  {pre : List Move} {before begun first second after : Bytes} {head head' : Head}

/-- Between two requests, the octets of a head bring about the answer to it. -/
theorem arrives_head {octets : Bytes} (hbegun : phase.begun? = some begun)
    (hincomplete : Head.parse s.maxHeaderSize begun = .error .incomplete)
    (hparse : Head.parse s.maxHeaderSize (begun ++ octets) = .ok (head, (begun ++ octets).length))
    (after : Bytes) : arrives s phase peer (octets ++ after) = answering s head after peer := by
  have hne : octets ≠ [] := by
    rintro rfl
    rw [List.append_nil, hincomplete] at hparse
    cases hparse
  have hmore := Head.parse_append_of_ok hparse after
  rw [List.append_assoc] at hmore
  rw [arrives_of_head hbegun (List.append_ne_nil_of_left_ne_nil hne after) hmore,
    ← List.append_assoc, List.drop_left]

/-- **A response depends on a request only through what it may depend on.** Where a read brings a
head, after what it brings of earlier requests, another head may stand in its place that is of the
same version and the same class of method and has the same values in six fields: whatever follows,
and whichever send fails, the same octets are sent. -/
theorem sends_run_of_alike (failure? : Option SendFailure) (hreach : Reaches s p trace phase peer)
    (hr : peer.read (patience phase) = r)
    (hresult : r.result = .ok (.octets (before ++ (first ++ after))))
    (hscript : p.script = pre ++ .send (before ++ (first ++ after)) :: r.peer.script)
    (hbegun : (takes s r.peer.now r.peer.isStopping phase before).phase.begun? = some begun)
    (hfirst : Head.parse s.maxHeaderSize (begun ++ first) = .ok (head, (begun ++ first).length))
    (hsecond : Head.parse s.maxHeaderSize (begun ++ second) = .ok (head', (begun ++ second).length))
    (halike : head.Alike head') :
    (run s failure? { p with
      script := pre ++ .send (before ++ (second ++ after)) :: r.peer.script }).trace.sends =
        (run s failure? p).trace.sends := by
  refine sends_run_congr ?_ failure?
  have hincomplete := hreach.parse_begun_takes hbegun
  -- both runs send the same up to the end of the request before
  have hrun := sends_run_of_change hreach hr hresult hscript hbegun
  have hself : { p with script := pre ++ .send (before ++ (first ++ after)) :: r.peer.script } =
      p := by
    rw [← hscript]
  have hthis := hrun (first ++ after) r.peer.script
  rw [hself] at hthis
  obtain ⟨goAhead, -, hanswering⟩ := replies_answering s head after r.peer
  obtain ⟨sends, sends', hreplies, hsends, hsends'⟩ := hanswering head' halike.treatedLike
  rw [hrun, hthis, arrives_head hbegun hincomplete hfirst, arrives_head hbegun hincomplete hsecond,
    hsends, hsends', hreplies.sends_eq halike.treatedLike halike.head_iff]

/-- The head of a GET request of a client that names itself. -/
def namedGet : Head where
  method := .get
  target := "/"
  version := .http11
  fields := [⟨"User-Agent", Utf8.encode "me"⟩]

/-- Another one, with a further field in front of the name. -/
def hostNamedGet : Head where
  method := .get
  target := "/there"
  version := .http11
  fields := [⟨"Host", Utf8.encode "here"⟩, ⟨"user-agent", Utf8.encode "me"⟩]

/-- A peer that sends two requests in one read, the second one with the given head. -/
def twoRequests (second : Bytes) : Peer where
  script := [.send (Utf8.encode "GET / HTTP/1.1\r\n\r\n" ++ (second ++ []))]

/-- A request line, a further field and padding that make no difference. -/
theorem sends_run_of_namedGet :
    namedGet.Alike hostNamedGet ∧
      (run {} none (twoRequests (Utf8.encode
        "GET /there HTTP/1.1\r\nHost: here\r\nuser-agent:  me \r\n\r\n"))).trace.sends =
      (run {} none (twoRequests (Utf8.encode
        "GET / HTTP/1.1\r\nUser-Agent: me\r\n\r\n"))).trace.sends := by
  generalize hsecond :
    Utf8.encode "GET /there HTTP/1.1\r\nHost: here\r\nuser-agent:  me \r\n\r\n" = second
  generalize hfirst : Utf8.encode "GET / HTTP/1.1\r\nUser-Agent: me\r\n\r\n" = first
  have halike : namedGet.Alike hostNamedGet := ⟨rfl, Iff.rfl, Iff.rfl, by decide +kernel⟩
  have hparse : Head.parse 16384 ([] ++ first) = .ok (namedGet, ([] ++ first).length) := by
    subst hfirst
    decide +kernel
  have hparse' : Head.parse 16384 ([] ++ second) = .ok (hostNamedGet, ([] ++ second).length) := by
    subst hsecond
    decide +kernel
  have hbegun : (takes {} 0 false (Connection.start {} 0)
      (Utf8.encode "GET / HTTP/1.1\r\n\r\n")).phase.begun? = some [] := by decide +kernel
  have hreach : Reaches {} (twoRequests first) [] (Connection.start {} 0) (twoRequests first) :=
      .start
  have hread : (twoRequests first).read (patience (Connection.start {} 0)) =
      { result := .ok (.octets (Utf8.encode "GET / HTTP/1.1\r\n\r\n" ++ (first ++ [])))
        trace := [⟨0, .received 0⟩], peer := { script := [], index := 1 } } := rfl
  have hscript : (twoRequests first).script =
      [] ++ .send (Utf8.encode "GET / HTTP/1.1\r\n\r\n" ++ (first ++ [])) :: [] := rfl
  exact ⟨halike, sends_run_of_alike none hreach hread rfl hscript hbegun hparse hparse' halike⟩

/-! ### HEAD requests -/

/-- What is sent for a HEAD request and after it, and what would be sent for a request with another
method in its place: the response without its body, and then the same. If the request is refused,
the report of that has its body in both. -/
inductive RepliesToHead : Outcome → List Bytes → List Bytes → Prop
  | answered (response : Response) (persistence : Persistence) (later : List Bytes) :
      RepliesToHead (.answered response) (Utf8.encode (response.head persistence) :: later)
        ((Utf8.encode (response.head persistence) ++ response.body) :: later)
  | refused (status : Status) (message : String) :
      RepliesToHead (.refused status message)
        [Utf8.encode ((Response.error status message).head .close) ++ Utf8.encode message]
        [Utf8.encode ((Response.error status message).head .close) ++ Utf8.encode message]
  | unanswered : RepliesToHead .unanswered [] []

/-- What is sent for a request is sent for HEAD without its body. -/
theorem Replies.toHead {outcome : Outcome} {sends sends' : List Bytes}
    (h : Replies s head head' outcome sends sends') (htreated : head.TreatedLike head')
    (hmethod : head.method = .head) (hmethod' : head'.method ≠ .head) :
    RepliesToHead outcome sends sends' := by
  cases h with
  | answered stopping response later =>
    rw [encodeResponse, encodeResponse, htreated.keepsOpen_eq, decide_eq_true hmethod,
      decide_eq_false hmethod', Response.encode, Response.encode, if_pos rfl, List.append_nil]
    exact .answered response _ later
  | refused status message => exact .refused status message
  | unanswered => exact .unanswered

/-- **A response to a HEAD request has no body**, and says how long the body would be that another
request would get. That holds of the responses to requests, be it that the body was to be decoded
and could not be; the report that a request is refused, for how its body is framed, how large it is
or how its chunks are formed, has its body. -/
theorem sends_of_head_request {failure? : Option SendFailure} {before after : Trace} {time : Nat}
    {target : String}
    (h : (run s failure? p).trace = before ++ ⟨time, .logged (.request "HEAD" target)⟩ :: after) :
    ∃ (buffer : Bytes) (head : Head) (size : Nat) (peer : Peer) (goAhead : List Bytes),
      Head.parse s.maxHeaderSize buffer = .ok (head, size) ∧ head.method = .head ∧
        head.target = target ∧ peer.now = time ∧
      run s none p = (answering s head (buffer.drop size) peer).after before ∧
      after.sends <+: (answering s head (buffer.drop size) peer).trace.sends ∧
      (goAhead = [] ∨ goAhead = [continueResponse]) ∧
      ∀ method, method ≠ .get → method ≠ .head → ∃ sends sends',
        RepliesToHead (outcome s head (buffer.drop size) peer) sends sends' ∧
          (answering s head (buffer.drop size) peer).trace.sends = goAhead ++ sends ∧
            (answering s { head with method } (buffer.drop size) peer).trace.sends =
              goAhead ++ sends' := by
  obtain ⟨after', hnone⟩ := exists_of_failing h nofun
  obtain ⟨buffer, head, size, peer, hparse, htoken, htarget, hnow, hrun⟩ :=
    exists_answering_of_run hnone
  have hmethod : head.method = .head := by
    rw [Head.method_eq_ofToken hparse, htoken]
    rfl
  obtain ⟨goAhead, hgoAhead, hreplies⟩ := replies_answering s head (buffer.drop size) peer
  refine ⟨buffer, head, size, peer, goAhead, hparse, hmethod, htarget, hnow, hrun, ?_, hgoAhead,
    fun method hget hhead => ?_⟩
  · have hprefix : Trace.sends (⟨time, .logged (.request "HEAD" target)⟩ :: after) <+: _ :=
      sends_isPrefix h (congrArg Run.trace hrun)
    exact hprefix
  · have htreated : head.TreatedLike { head with method } :=
      Head.treatedLike_of_method (hmethod ▸ nofun) hget
    obtain ⟨sends, sends', hsame, hsends, hsends'⟩ := hreplies _ htreated
    exact ⟨sends, sends', hsame.toHead htreated hmethod hhead, hsends, hsends'⟩

/-- A HEAD request with a body of unknown length. -/
def headRefused : Peer where
  script := [.send (Utf8.encode "HEAD / HTTP/1.1\r\nContent-Length: x\r\n\r\n")]

/-- The report that it is refused is sent with its body, which follows the blank line. -/
theorem sends_run_headRefused :
    (run {} none headRefused).trace.sends =
      [Utf8.encode
        ("HTTP/1.1 400 Bad Request\r\nServer: keepalive-echo\r\nContent-Length: 45\r\n" ++
        "Connection: close\r\n\r\n" ++ "HTTP Parsing Error: Invalid Content-Length: x")] := by
  decide +kernel

/-- The report to a HEAD request that is refused is what another method gets. -/
theorem sends_of_head_request_headRefused :
    (run {} none headRefused).trace = [⟨0, .received 0⟩] ++
        ⟨0, .logged (.request "HEAD" "/")⟩ :: (run {} none headRefused).trace.drop 2 ∧
      ∃ (buffer : Bytes) (head : Head) (size : Nat) (peer : Peer) (goAhead : List Bytes),
        Head.parse 16384 buffer = .ok (head, size) ∧ head.method = .head ∧
          head.target = "/" ∧ peer.now = 0 ∧
        run {} none headRefused =
          (answering {} head (buffer.drop size) peer).after [⟨0, .received 0⟩] ∧
        Trace.sends ((run {} none headRefused).trace.drop 2) <+:
          (answering {} head (buffer.drop size) peer).trace.sends ∧
        (goAhead = [] ∨ goAhead = [continueResponse]) ∧
        ∀ method, method ≠ .get → method ≠ .head → ∃ sends sends',
          RepliesToHead (outcome {} head (buffer.drop size) peer) sends sends' ∧
            (answering {} head (buffer.drop size) peer).trace.sends = goAhead ++ sends ∧
              (answering {} { head with method } (buffer.drop size) peer).trace.sends =
                goAhead ++ sends' :=
  have htrace : (run {} none headRefused).trace = [⟨0, .received 0⟩] ++
      ⟨0, .logged (.request "HEAD" "/")⟩ :: (run {} none headRefused).trace.drop 2 := by
    decide +kernel
  ⟨htrace, sends_of_head_request htrace⟩

end HttpEcho.Session
