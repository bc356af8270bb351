import HttpEcho.Proofs.Response.Headers
import Mathlib.Algebra.Group.Nat.Defs

/-!
# Reading responses

A client finds the end of a response by its head: the head ends at the first blank line, and says
how many octets follow. It has to know which of its requests asked for the head alone, and nothing
else (`Client.readAll?`). What it reads is what was sent, for any number of responses behind one
another and whatever their bodies hold, blank lines and status lines among it
(`Client.reads_flatMap_wire`).

The head is taken apart as that of a request is: the window for its ending and the reader of header
fields are those of the server.
-/

namespace HttpEcho

namespace Span

/-- The nanoseconds of a span. -/
def total (s : Span) : Nat := s.seconds * 10 ^ 9 + s.nanoseconds

/-- The least number of whole seconds that is not shorter than the span. -/
def leastSeconds (s : Span) : Nat := (s.total + (10 ^ 9 - 1)) / 10 ^ 9

/-- So many seconds are enough exactly if the time is not longer. -/
theorem leastSeconds_le_iff {s : Span} {n : Nat} : s.leastSeconds ≤ n ↔ s.total ≤ n * 10 ^ 9 := by
  rw [leastSeconds]
  omega

theorem leastSeconds_eq_zero_iff {s : Span} :
    s.leastSeconds = 0 ↔ s.seconds = 0 ∧ s.nanoseconds = 0 := by
  rw [leastSeconds, total]
  omega

/-- As the nanoseconds are less than a second, rounding up adds one second at most. -/
theorem secondsRoundedUp_eq_leastSeconds {s : Span} (h : s.nanoseconds < 10 ^ 9) :
    s.secondsRoundedUp = s.leastSeconds := by
  rw [secondsRoundedUp, leastSeconds, total]
  split <;> omega

end Span

namespace Client

/-! ### The reader -/

/-- What a client learns about the connection: it stays open for some seconds, or it closes. -/
inductive Announced where
  | keepAlive (seconds : Nat)
  | close
  deriving DecidableEq, Repr

/-- What a client gets of a body: its octets, or their number. -/
inductive Payload where
  | body (octets : Bytes)
  | lengthOnly (length : Nat)
  deriving DecidableEq, Repr

/-- A response as a client reads it. -/
structure Received where
  code : Nat
  announced : Announced
  payload : Payload
  deriving DecidableEq, Repr

/-- The lines of the head that stands in front, and what follows its ending. -/
def cutHead? (octets : Bytes) : Option (List Bytes × Bytes) :=
  (Bytes.search headEnd octets).map fun size =>
    (Bytes.lines (octets.take size), octets.drop (size + headEnd.length))

/-- The status code, which is the second word of a status line. -/
def code? (line : Bytes) : Option Nat :=
  match (Utf8.decode? line).map (Text.pieces ' ') with
  | some (_ :: code :: _) => Text.decimal? code
  | _ => none

/-- How long the body is. -/
def length? (fields : Fields) : Option Nat := (fields.text? "content-length").bind Text.decimal?

/-- What follows the front of a text. -/
def behind? (front text : List Char) : Option (List Char) :=
  if front.isPrefixOf text then some (text.drop front.length) else none

/-- What is said about the connection. -/
def announced? (fields : Fields) : Option Announced :=
  if fields.hasToken "connection" "close" then some .close
  else if fields.hasToken "connection" "keep-alive" then
    ((fields.text? "keep-alive").bind (behind? "timeout=".toList)).bind fun seconds =>
      (Text.decimal? seconds).map .keepAlive
  else none

/-- What comes of a body of some length, and what follows it. -/
def payload? (headOnly : Bool) (length : Nat) (octets : Bytes) : Option (Payload × Bytes) :=
  if headOnly then some (.lengthOnly length, octets)
  else if octets.length < length then none
  else some (.body (octets.take length), octets.drop length)

/-- Read the response that stands in front, which may be the head alone, and leave what follows
it. -/
def read? (headOnly : Bool) (octets : Bytes) : Option (Received × Bytes) := do
  let (lines, rest) ← cutHead? octets
  let code ← code? (lines.headD [])
  let fields ← (Fields.parse maxFields lines.tail).toOption
  let announced ← announced? fields
  let length ← length? fields
  let (payload, rest) ← payload? headOnly length rest
  return ({ code, announced, payload }, rest)

/-- Read one response for each request, of which it is known whether it asked for the head alone. -/
def readAll? : List Bool → Bytes → Option (List Received × Bytes)
  | [], octets => some ([], octets)
  | headOnly :: others, octets => do
    let (first, rest) ← read? headOnly octets
    let (received, rest) ← readAll? others rest
    return (first :: received, rest)

/-! ### What is read -/

theorem cutHead?_encode_append (r : Response) (p : Persistence) (headOnly : Bool) (rest : Bytes) :
    cutHead? (r.encode p headOnly ++ rest) =
      some (Response.statusLine r.status :: (r.headers p).map Response.headerLine,
        (if headOnly then [] else r.body) ++ rest) := by
  have hlines : ∀ l ∈ Response.statusLine r.status :: (r.headers p).map Response.headerLine,
      IsLine l := by
    refine List.forall_mem_cons.2 ⟨Response.isLine_statusLine r.status, fun l hl => ?_⟩
    obtain ⟨ts, hts, -⟩ := r.exists_fieldTexts p
    obtain ⟨t, -, rfl⟩ := List.mem_map.1 (hts ▸ hl)
    exact t.isLine_wire
  have hsearch := search_headEnd hlines ((if headOnly then [] else r.body) ++ rest)
  rw [r.encode_eq_headers, List.append_assoc, List.append_assoc, List.append_assoc, cutHead?,
    hsearch, Option.map_some, ← List.append_assoc (Response.statusLine r.status), List.take_left,
    lines_of_isLine hlines, ← List.drop_drop, List.drop_left, List.drop_left]

/-- The code of a status is read from its line. -/
theorem code?_statusLine (status : Status) :
    code? (Response.statusLine status) = some status.code := by
  cases status <;> decide +kernel

/-- The headers of a response are read as they are meant. -/
theorem parse_headers (r : Response) (p : Persistence) :
    Fields.parse maxFields ((r.headers p).map Response.headerLine) =
      .ok ((r.headers p).map Response.headerField) := by
  have hlength : ((r.headers p).map Response.headerLine).length ≤ maxFields := by
    rw [List.length_map]
    cases p <;> exact Nat.le_of_ble_eq_true rfl
  exact Fields.parse_eq_ok_iff.2 ⟨hlength, r.exists_fieldTexts p⟩

/-- Which of the names of the header lines is that of a field. -/
private theorem sameIgnoringCase_names :
    Text.sameIgnoringCase "Server".toList "content-length".toList = false ∧
    Text.sameIgnoringCase "Content-Length".toList "content-length".toList = true ∧
    Text.sameIgnoringCase "Server".toList "connection".toList = false ∧
    Text.sameIgnoringCase "Content-Length".toList "connection".toList = false ∧
    Text.sameIgnoringCase "Connection".toList "connection".toList = true ∧
    Text.sameIgnoringCase "Keep-Alive".toList "connection".toList = false ∧
    Text.sameIgnoringCase "Server".toList "keep-alive".toList = false ∧
    Text.sameIgnoringCase "Content-Length".toList "keep-alive".toList = false ∧
    Text.sameIgnoringCase "Connection".toList "keep-alive".toList = false ∧
    Text.sameIgnoringCase "Keep-Alive".toList "keep-alive".toList = true := by
  decide +kernel

/-- The length that a response declares is that of its body. -/
theorem length?_headers (r : Response) (p : Persistence) :
    length? ((r.headers p).map Response.headerField) = some r.body.length := by
  have hvalue : Fields.value? ((r.headers p).map Response.headerField) "content-length" =
      some (Utf8.encode (toString r.body.length)) := by
    simp only [Fields.value?, Response.headers, Response.headerField, List.map_cons,
      List.find?_cons, Field.isNamed, sameIgnoringCase_names, Option.map_some]
  rw [length?, Fields.text?, hvalue, Option.bind_some, Utf8.encode, Utf8.decode?_encodeChars,
    Option.bind_some]
  exact Text.decimal?_eq_some_iff.2 (Text.denotes_toString _)

/-- What a response says about the connection. -/
def announced : Persistence → Announced
  | .keepAlive idle => .keepAlive idle.secondsRoundedUp
  | .close => .close

/-- The tokens of a connection line. -/
theorem hasToken_of_values {fields : Fields} {name value : String}
    (h : fields.values name = [Utf8.encode value]) (token : String) :
    fields.hasToken name token =
      (Text.items value.toList).any (Text.sameIgnoringCase · token.toList) := by
  rw [Fields.hasToken, Fields.itemsOf, h, Utf8.encode, List.filterMap_cons,
    Utf8.decode?_encodeChars]
  simp only [List.filterMap_nil, List.flatMap_cons, List.flatMap_nil, List.append_nil]

theorem behind?_append (front text : List Char) : behind? front (front ++ text) = some text := by
  rw [behind?, if_pos (List.isPrefixOf_iff_prefix.2 (List.prefix_append front text)),
    List.drop_left]

/-- A response says of the connection one thing. -/
theorem values_connection (r : Response) (p : Persistence) :
    Fields.values ((r.headers p).map Response.headerField) "connection" =
      [Utf8.encode p.option] := by
  cases p <;>
    simp only [Fields.values, Response.headers, Persistence.parameters, Response.headerField,
      List.map_cons, List.map_nil, List.filter_cons, List.filter_nil, Field.isNamed,
      sameIgnoringCase_names, if_true, Bool.false_eq_true, if_false]

/-- A response that keeps the connection open says for how many seconds. -/
theorem value?_keepAlive (r : Response) (idle : Span) :
    Fields.value? ((r.headers (.keepAlive idle)).map Response.headerField) "keep-alive" =
      some (Utf8.encode ("timeout=" ++ toString idle.secondsRoundedUp)) := by
  simp only [Fields.value?, Response.headers, Persistence.parameters, Response.headerField,
    List.map_cons, List.find?_cons, Field.isNamed, sameIgnoringCase_names, Option.map_some]

/-- What a response says of the connection is read as it is meant. -/
theorem announced?_headers (r : Response) (p : Persistence) :
    announced? ((r.headers p).map Response.headerField) = some (announced p) := by
  have hvalues := values_connection r p
  cases p with
  | close =>
    have hclose : (Text.items "close".toList).any (Text.sameIgnoringCase · "close".toList) =
        true := by
      decide +kernel
    rw [announced?, hasToken_of_values hvalues, Persistence.option, hclose, if_pos rfl]
    rfl
  | keepAlive idle =>
    have hclose : (Text.items "keep-alive".toList).any (Text.sameIgnoringCase · "close".toList) =
        false := by
      decide +kernel
    have hstay : (Text.items "keep-alive".toList).any
        (Text.sameIgnoringCase · "keep-alive".toList) = true := by
      decide +kernel
    rw [announced?, hasToken_of_values hvalues, hasToken_of_values hvalues, Persistence.option,
      hclose, hstay, if_neg Bool.false_ne_true, if_pos rfl, Fields.text?, value?_keepAlive,
      Option.bind_some, Utf8.encode, Utf8.decode?_encodeChars, Option.bind_some,
      String.toList_append, behind?_append, Option.bind_some,
      Text.decimal?_eq_some_iff.2 (Text.denotes_toString _)]
    rfl

/-- What a client gets of a body. -/
def payload (headOnly : Bool) (body : Bytes) : Payload :=
  if headOnly then .lengthOnly body.length else .body body

theorem payload?_append (headOnly : Bool) (body rest : Bytes) :
    payload? headOnly body.length ((if headOnly then [] else body) ++ rest) =
      some (payload headOnly body, rest) := by
  cases headOnly with
  | true => rfl
  | false =>
    have hlength : ¬ (body ++ rest).length < body.length := by
      rw [List.length_append]
      exact Nat.not_lt.2 (Nat.le_add_right _ _)
    rw [payload?, if_neg Bool.false_ne_true, if_neg Bool.false_ne_true, if_neg hlength,
      List.take_left, List.drop_left]
    rfl

/-- **A response is read** as it was sent, whatever comes behind it. -/
theorem read?_encode_append (r : Response) (p : Persistence) (headOnly : Bool) (rest : Bytes) :
    read? headOnly (r.encode p headOnly ++ rest) =
      some (⟨r.status.code, announced p, payload headOnly r.body⟩, rest) := by
  have hfields : (Fields.parse maxFields ((r.headers p).map Response.headerLine)).toOption =
      some ((r.headers p).map Response.headerField) := by
    rw [parse_headers]
    rfl
  rw [read?, cutHead?_encode_append]
  simp only [Option.bind_eq_bind, Option.bind_some, List.headD_cons, List.tail_cons,
    code?_statusLine, hfields, announced?_headers, length?_headers, payload?_append]
  rfl

end Client

/-- The time for which a connection stays open, in whole seconds and rounded up, or that it
closes. -/
def Persistence.announcement : Persistence → Client.Announced
  | .keepAlive idle => .keepAlive idle.leastSeconds
  | .close => .close

namespace Response

/-- A response that is sent, with what it says about the connection and whether it is a head
alone. -/
structure Sent where
  response : Response
  persistence : Persistence
  headOnly : Bool
  /-- A span has less than a second besides its whole seconds. -/
  nanoseconds_lt : ∀ idle, persistence = .keepAlive idle → idle.nanoseconds < 10 ^ 9

namespace Sent

/-- The octets that are sent. -/
def wire (s : Sent) : Bytes := s.response.encode s.persistence s.headOnly

/-- What the client is to get: the code, the time for which the connection stays open in whole
seconds, rounded up, and the body or its length. -/
def received (s : Sent) : Client.Received where
  code := s.response.status.code
  announced := s.persistence.announcement
  payload := if s.headOnly then .lengthOnly s.response.body.length else .body s.response.body

end Sent

end Response

namespace Client

open Response (Sent)

theorem announced_persistence (s : Sent) : announced s.persistence = s.received.announced := by
  rw [Sent.received]
  cases hpersistence : s.persistence with
  | close => rfl
  | keepAlive idle =>
    rw [announced, Persistence.announcement,
      Span.secondsRoundedUp_eq_leastSeconds (s.nanoseconds_lt idle hpersistence)]

/-- A response is read as it was sent, whatever follows it. -/
theorem read?_wire_append (s : Sent) (rest : Bytes) :
    read? s.headOnly (s.wire ++ rest) = some (s.received, rest) := by
  rw [Sent.wire, read?_encode_append, announced_persistence]
  rfl

/-- Responses behind one another are read one by one. -/
theorem readAll?_flatMap_wire_append (sent : List Sent) (rest : Bytes) :
    readAll? (sent.map Sent.headOnly) (sent.flatMap Sent.wire ++ rest) =
      some (sent.map Sent.received, rest) := by
  induction sent with
  | nil => rfl
  | cons s sent ih =>
    rw [List.map_cons, List.flatMap_cons, List.append_assoc, readAll?, read?_wire_append]
    simp only [Option.bind_eq_bind, Option.bind_some, ih]
    rfl

/-! ### What is read tells what was sent -/

theorem persistenceLines_eq_of_announced_eq {p p' : Persistence} (h : announced p' = announced p) :
    Response.persistenceLines p' = Response.persistenceLines p := by
  cases p with
  | close =>
    cases p' with
    | close => rfl
    | keepAlive => cases h
  | keepAlive idle =>
    cases p' with
    | close => cases h
    | keepAlive idle' =>
      rw [Response.persistenceLines, Response.persistenceLines, Announced.keepAlive.inj h]

/-- A response that is read as another one has the same octets. -/
theorem wire_eq_of_received_eq {s s' : Sent} (hheadOnly : s'.headOnly = s.headOnly)
    (h : s'.received = s.received) : s'.wire = s.wire := by
  have hcode : s'.response.status.code = s.response.status.code := congrArg Received.code h
  have hstatus : s'.response.status = s.response.status := by
    rw [← Option.some_inj, ← Status.ofCode?_code, hcode, Status.ofCode?_code]
  have hlines : Response.persistenceLines s'.persistence =
      Response.persistenceLines s.persistence := by
    refine persistenceLines_eq_of_announced_eq ?_
    rw [announced_persistence, announced_persistence, h]
  have hpayload : payload s'.headOnly s'.response.body = payload s.headOnly s.response.body :=
    congrArg Received.payload h
  have hbody : s'.response.body.length = s.response.body.length ∧
      (if s'.headOnly then [] else s'.response.body) =
        if s.headOnly then [] else s.response.body := by
    rw [hheadOnly] at hpayload ⊢
    cases hs : s.headOnly with
    | true =>
      rw [hs] at hpayload
      exact ⟨Payload.lengthOnly.inj hpayload, rfl⟩
    | false =>
      rw [hs] at hpayload
      have hsame := Payload.body.inj hpayload
      exact ⟨congrArg List.length hsame, hsame⟩
  rw [Sent.wire, Sent.wire, Response.encode_eq, Response.encode_eq, hstatus, hlines, hbody.1,
    hbody.2]

theorem map_wire_eq_of_map_received_eq {sent sent' : List Sent}
    (hheadOnly : sent'.map Sent.headOnly = sent.map Sent.headOnly)
    (h : sent'.map Sent.received = sent.map Sent.received) :
    sent'.map Sent.wire = sent.map Sent.wire := by
  induction sent' generalizing sent with
  | nil => rw [List.map_eq_nil_iff.1 hheadOnly.symm]
  | cons s' sent' ih =>
    cases sent with
    | nil => cases h
    | cons s sent =>
      obtain ⟨hfirst, hothers⟩ := List.cons.inj hheadOnly
      obtain ⟨hreceived, hreceiveds⟩ := List.cons.inj h
      rw [List.map_cons, List.map_cons, wire_eq_of_received_eq hfirst hreceived,
        ih hothers hreceiveds]

/-- **Responses can be told apart.** Whatever was sent, one after the other, and whatever comes
behind it, a client that knows which responses are heads alone reads for each one its code, the time
for which the connection stays open, and its body or the length of it; that time is the least number
of seconds that is not shorter than the span, and is nothing only for the empty span. There is no
other way to divide what was sent into responses of this kind. -/
theorem reads_flatMap_wire (sent : List Sent) :
    (∀ rest, readAll? (sent.map Sent.headOnly) (sent.flatMap Sent.wire ++ rest) =
      some (sent.map Sent.received, rest)) ∧
    (∀ s ∈ sent, ∀ idle, s.persistence = .keepAlive idle →
      ∃ seconds, s.received.announced = .keepAlive seconds ∧
        (∀ n, seconds ≤ n ↔ idle.total ≤ n * 10 ^ 9) ∧
        (seconds = 0 ↔ idle.seconds = 0 ∧ idle.nanoseconds = 0)) ∧
    ∀ (sent' : List Sent) (rest rest' : Bytes), sent'.map Sent.headOnly = sent.map Sent.headOnly →
      sent'.flatMap Sent.wire ++ rest' = sent.flatMap Sent.wire ++ rest →
        sent'.map Sent.wire = sent.map Sent.wire ∧
          sent'.map Sent.received = sent.map Sent.received ∧
          rest' = rest := by
  refine ⟨readAll?_flatMap_wire_append sent, fun s _ idle hidle => ⟨idle.leastSeconds, ?_,
    fun n => Span.leastSeconds_le_iff, Span.leastSeconds_eq_zero_iff⟩,
    fun sent' rest rest' hheadOnly hoctets => ?_⟩
  · rw [Sent.received, hidle, Persistence.announcement]
  · have hread := readAll?_flatMap_wire_append sent' rest'
    rw [hheadOnly, hoctets, readAll?_flatMap_wire_append, Option.some.injEq, Prod.mk.injEq] at hread
    obtain ⟨hreceived, hrest⟩ := hread
    exact ⟨map_wire_eq_of_map_received_eq hheadOnly hreceived.symm, hreceived.symm, hrest.symm⟩

end Client

end HttpEcho
