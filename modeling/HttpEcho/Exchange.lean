import HttpEcho.Body.Reader
import HttpEcho.Gzip.Decoder
import HttpEcho.Notice
import HttpEcho.Response

/-!
# Answering one request

An `Exchange` is a request whose body is being read. `Exchange.feed` takes octets of the body out
of a buffer and, once the body is complete, gives the response: a greeting for GET, and an echo of
the body for every other method. The body is always read to its end, so that the next request on
the connection begins where the body ends.
-/

namespace HttpEcho

/-- What the greeting calls a client that does not name itself. -/
def anonymous : String := "undefined"

/-- The body of the response to a GET request. What the client calls itself is copied octet by
octet. -/
def greeting (userAgent? : Option Bytes) : Bytes :=
  Utf8.encode "hello " ++ userAgent?.getD (Utf8.encode anonymous) ++ Utf8.encode "\n"

/-- A request whose body is being read, with the chunks received so far, the last one first. -/
structure Exchange where
  head : Head
  echo : EchoPolicy
  maxBodySize : Nat
  body : Body
  received : List Bytes
  deriving DecidableEq, Repr

namespace Exchange

/-- The exchange that a request head begins. -/
def start (echo : EchoPolicy) (maxBodySize : Nat) (head : Head) (framing : Framing) : Exchange :=
  { head, echo, maxBodySize, body := .ofFraming framing maxBodySize, received := [] }

/-- The notice about a chunk. The chunks of a GET request are not worth one each. -/
def noticeOfChunk (head : Head) (octets : Bytes) : List Notice :=
  if head.method = .get then [] else [.bodyChunk octets.length]

/-- The echo of a whole body. A body that is declared as gzip is sent back decoded. -/
def echoFull (head : Head) (maxBodySize : Nat) (body : Bytes) : List Notice × Response :=
  if head.isGzip && !body.isEmpty then
    match Gzip.decode maxBodySize body with
    | .ok decoded => ([.gzipDecoded body.length decoded.length], .ok decoded)
    | .error e => ([.gzipFailed e], .error .badRequest s!"Invalid gzip body: {e.message}")
  else ([], .ok body)

/-- The response to a request with the given chunks, and what is worth a notice then. -/
def respond (head : Head) (echo : EchoPolicy) (maxBodySize : Nat) (chunks : List Bytes) :
    List Notice × Response :=
  if head.method = .get then
    let discarded := chunks.flatten.length
    (if discarded = 0 then [] else [.bodyDiscarded discarded], .ok (greeting head.userAgent?))
  else
    match echo with
    | .full => echoFull head maxBodySize chunks.flatten
    | .firstChunk => ([], .ok (chunks.head?.getD []))

/-- How far an exchange has come. -/
inductive Progress where
  /-- More octets are needed. -/
  | waiting (exchange : Exchange)
  /-- The body is complete. -/
  | answered (response : Response)
  /-- The body is refused. -/
  | refused (error : BodyError)
  deriving DecidableEq, Repr

/-- The result of feeding: the notices, how far the exchange has come, and the octets that are
left. -/
structure Fed where
  notices : List Notice
  progress : Progress
  rest : Bytes
  deriving DecidableEq, Repr

/-- Put notices in front. -/
def Fed.after (f : Fed) (notices : List Notice) : Fed := { f with notices := notices ++ f.notices }

/-- Take what the body needs out of a buffer. -/
def feed (x : Exchange) (buffer : Bytes) : Fed :=
  let a := x.body.advance buffer
  match _h : a.outcome with
  | .chunk octets =>
    (feed { x with body := a.body, received := octets :: x.received } a.rest).after
      (noticeOfChunk x.head octets)
  | .complete =>
    let (notices, response) := respond x.head x.echo x.maxBodySize x.received.reverse
    { notices, progress := .answered response, rest := a.rest }
  | .wait => { notices := [], progress := .waiting { x with body := a.body }, rest := a.rest }
  | .refused error => { notices := [], progress := .refused error, rest := a.rest }
termination_by x.body.measure buffer
decreasing_by exact (x.body.advance_le buffer).2 octets _h

/-- Feeding never adds octets. -/
theorem length_feed_rest_le (x : Exchange) (buffer : Bytes) :
    (x.feed buffer).rest.length ≤ buffer.length := by
  fun_induction feed x buffer with
  | case1 x buffer a octets h ih =>
    have := (x.body.advance_le buffer).1
    simp only [Fed.after]
    exact Nat.le_trans ih this
  | case2 x buffer => exact (x.body.advance_le buffer).1
  | case3 x buffer => exact (x.body.advance_le buffer).1
  | case4 x buffer => exact (x.body.advance_le buffer).1

end Exchange

end HttpEcho
