import HttpEcho.Exchange
import HttpEcho.Trace

/-!
# Connections

A connection is a machine. Its phase says what it waits for: the first octet of a request, the
rest of a request head, or more of a request body. `Connection.step` gives what it does when
something arrives or a wait is over, and the phase after it. Octets that arrive may hold several
requests; all that can be answered are answered at once, one after the other.

The first head has to be complete within the headers timeout from the start of the connection.
Each later one has the headers timeout from its first octet, and that octet has to arrive within
the keep-alive timeout.
-/

namespace HttpEcho

namespace Connection

/-- How a connection ends. -/
inductive Ending where
  /-- In order, by either side. -/
  | closed
  /-- By a failure of reading or sending. -/
  | failed (fault : Fault)
  deriving DecidableEq, Repr

/-- Something that a connection does. -/
inductive Action where
  | log (notice : Notice)
  | send (octets : Bytes)
  /-- Close the sending side. -/
  | close
  deriving DecidableEq, Repr

/-- Something that a connection waits for. -/
inductive Input where
  | octets (octets : Bytes)
  | endOfInput
  | failure (kind : FaultKind)
  /-- The deadline of the wait has come. -/
  | deadline
  /-- The server is told to stop. -/
  | stop
  deriving DecidableEq, Repr

/-- What a connection waits for. -/
inductive Phase where
  /-- The first octet of a request. If the request is the first one, the deadline is also that of
  its head. -/
  | idle (first : Bool) (deadline : Nat)
  /-- The rest of a head, of which some octets are there. -/
  | head (deadline : Nat) (buffer : Bytes)
  /-- More of the body of a request. -/
  | body (exchange : Exchange) (buffer : Bytes)
  /-- Nothing. -/
  | ended (ending : Ending)
  deriving DecidableEq, Repr

/-- The phase in which a connection begins. -/
def start (s : Settings) (now : Nat) : Phase := .idle true (now + s.headersTimeout)

/-- What a connection does at one time, and the phase after it. -/
structure Turn where
  actions : List Action
  phase : Phase
  deriving DecidableEq, Repr

/-- Put actions in front. -/
def Turn.after (t : Turn) (actions : List Action) : Turn :=
  { t with actions := actions ++ t.actions }

/-- End the connection in order. -/
def finish (actions : List Action) : Turn := { actions, phase := .ended .closed }

/-- Send an error response and end the connection. -/
def reject (notice : Notice) (status : Status) (message : String) : Turn :=
  finish [.log notice, .send ((Response.error status message).encode .close false), .close]

/-- Whether the connection stays open after the response to a request. -/
def keepsOpen (s : Settings) (stopping : Bool) (head : Head) : Bool :=
  head.keepsAlive && s.keepAliveEnabled && !stopping

/-- The response on the wire: it says whether the connection stays open, and to a HEAD request it
has no body. -/
def encodeResponse (s : Settings) (stopping : Bool) (head : Head) (response : Response) : Bytes :=
  let persistence :=
    if keepsOpen s stopping head then .keepAlive (.ofMilliseconds s.keepAliveTimeout) else .close
  response.encode persistence (head.method = .head)

/-- What an exchange that was fed leads to: a turn, or, if the connection goes on to the next
request, the actions so far and the octets that are left. -/
inductive Settled where
  | turn (turn : Turn)
  | next (actions : List Action) (rest : Bytes)
  deriving DecidableEq, Repr

/-- Act on an exchange that was fed. -/
def settle (s : Settings) (stopping : Bool) (head : Head) (fed : Exchange.Fed) : Settled :=
  let logs := fed.notices.map Action.log
  match fed.progress with
  | .waiting exchange => .turn { actions := logs, phase := .body exchange fed.rest }
  | .refused error =>
    .turn ((reject (.bodyFailed error) error.status error.message).after logs)
  | .answered response =>
    let actions := logs ++ [.send (encodeResponse s stopping head response)]
    if keepsOpen s stopping head then .next actions fed.rest
    else .turn ((finish [.log .closingAfterResponse, .close]).after actions)

/-- Begin to answer a request: check how its body is framed, send the go-ahead if the client waits
for it, and take what is there of the body. -/
def answer (s : Settings) (stopping : Bool) (head : Head) (rest : Bytes) : Settled :=
  let log : Action := .log (.request head.method.token head.target)
  match head.framing with
  | .error error =>
    .turn ((reject (.framingFailed error) error.status error.report).after [log])
  | .ok framing =>
    match framing with
    | .length n =>
      if s.maxBodySize < n then
        let error := BodyError.tooLarge s.maxBodySize
        .turn ((reject (.declaredTooLarge n error) error.status error.message).after [log])
      else proceed log framing
    | _ => proceed log framing
where
  /-- Take what is there of a body whose framing is accepted. -/
  proceed (log : Action) (framing : Framing) : Settled :=
    let goAhead : List Action :=
      if head.expectsContinue && framing ≠ .empty then [.send continueResponse] else []
    let exchange := Exchange.start s.echo s.maxBodySize head framing
    match settle s stopping head (exchange.feed rest) with
    | .turn t => .turn (t.after (log :: goAhead))
    | .next actions left => .next (log :: goAhead ++ actions) left

/-- The octets left for the next request are among those that followed the head. -/
theorem length_answer_next_le {s : Settings} {stopping : Bool} {head : Head} {rest left : Bytes}
    {actions : List Action} (h : answer s stopping head rest = .next actions left) :
    left.length ≤ rest.length := by
  have key : ∀ log framing, answer.proceed s stopping head rest log framing = .next actions left →
      left.length ≤ rest.length := by
    intro log framing hp
    unfold answer.proceed at hp
    dsimp only at hp
    split at hp
    · simp at hp
    · rename_i actions' left' hs
      simp only [Settled.next.injEq] at hp
      obtain ⟨-, rfl⟩ := hp
      unfold settle at hs
      dsimp only at hs
      split at hs
      · simp at hs
      · simp at hs
      · split at hs
        · simp only [Settled.next.injEq] at hs
          rw [← hs.2]
          exact Exchange.length_feed_rest_le _ _
        · simp at hs
  unfold answer at h
  dsimp only at h
  split at h
  · simp at h
  · split at h
    · split at h
      · simp at h
      · exact key _ _ h
    · exact key _ _ h

/-- Answer the requests in a buffer. The head of the first one has the given deadline. -/
def serve (s : Settings) (now : Nat) (stopping : Bool) (deadline : Nat) (buffer : Bytes) : Turn :=
  match _hp : Head.parse s.maxHeaderSize buffer with
  | .error .incomplete => { actions := [], phase := .head deadline buffer }
  | .error error => reject (.parseFailed error) error.status error.report
  | .ok (head, size) =>
    match _ha : answer s stopping head (buffer.drop size) with
    | .turn t => t
    | .next actions [] => { actions, phase := .idle false (now + s.keepAliveTimeout) }
    | .next actions (b :: rest) =>
      (serve s now stopping (now + s.headersTimeout) (b :: rest)).after actions
termination_by buffer.length
decreasing_by
  have := length_answer_next_le _ha
  have := Head.parse_consumed _hp
  rw [List.length_drop] at *
  omega

/-- Go on with a body that more octets have arrived for. -/
def resume (s : Settings) (now : Nat) (stopping : Bool) (exchange : Exchange) (buffer : Bytes) :
    Turn :=
  match settle s stopping exchange.head (exchange.feed buffer) with
  | .turn t => t
  | .next actions [] => { actions, phase := .idle false (now + s.keepAliveTimeout) }
  | .next actions rest => (serve s now stopping (now + s.headersTimeout) rest).after actions

/-- What a connection does when something that it waits for comes at time `now`; `stopping` says
whether the server has been told to stop by then. -/
def step (s : Settings) (now : Nat) (stopping : Bool) : Phase → Input → Turn
  | .ended ending, _ => { actions := [], phase := .ended ending }
  | _, .failure kind => { actions := [], phase := .ended (.failed kind.fault) }
  | .idle first deadline, .octets octets =>
    serve s now stopping (if first then deadline else now + s.headersTimeout) octets
  | .idle .., .endOfInput => finish [.log .closedByClient]
  | .idle .., .deadline => finish [.log .idleTimeout]
  | .idle .., .stop => finish [.log .closingIdleOnShutdown]
  | .head deadline buffer, .octets octets => serve s now stopping deadline (buffer ++ octets)
  | .head .., .endOfInput => finish [.log .closedInHead]
  | .head .., .deadline => reject .headTimeout .requestTimeout Status.requestTimeout.reason
  | .body exchange buffer, .octets octets =>
    resume s now stopping exchange (buffer ++ octets)
  | .body .., .endOfInput => finish [.log .bodyCutShort]
  | phase, _ => { actions := [], phase }

end Connection

end HttpEcho
