import HttpEcho.Proofs.Exchange
import HttpEcho.Proofs.Head.Framing

/-!
# Heads that are treated alike

A response depends on a head only through how its body is framed, whether the client waits for the
go-ahead, whether it lets the connection stay open, and what is answered to which body
(`Head.TreatedLike`): an exchange with another head that agrees in these takes the same octets and
gives the same response (`Exchange.feed_withHead`). Two heads of one version and one class of method
agree in all of that if six fields have the same values in them (`Head.Alike.treatedLike`), and so
do two heads that differ in the method alone, as long as neither method is GET
(`Head.treatedLike_of_method`).
-/

namespace HttpEcho

namespace Head

/-- The second head is treated as the first one. -/
structure TreatedLike (head head' : Head) : Prop where
  framing_eq : head'.framing = head.framing
  expectsContinue_eq : head'.expectsContinue = head.expectsContinue
  keepsAlive_eq : head'.keepsAlive = head.keepsAlive
  respond_eq : ∀ (echo : EchoPolicy) (maxBodySize : Nat) (chunks : List Bytes),
    (Exchange.respond head' echo maxBodySize chunks).2 =
      (Exchange.respond head echo maxBodySize chunks).2

/-- The names of the fields that a response may depend on. -/
def readFields : List String :=
  ["connection", "transfer-encoding", "content-length", "expect", "content-encoding", "user-agent"]

/-- Two heads have the same version, methods of the same class (GET, HEAD or any other), and the
same values in the fields that a response may depend on. -/
structure Alike (head head' : Head) : Prop where
  version_eq : head'.version = head.version
  get_iff : head'.method = .get ↔ head.method = .get
  head_iff : head'.method = .head ↔ head.method = .head
  values_eq : ∀ name ∈ readFields, head'.fields.values name = head.fields.values name

variable {head head' : Head}

/-! ### What is read of the fields -/

theorem hasToken_congr {fields fields' : Fields} {name : String}
    (h : fields'.values name = fields.values name) (token : String) :
    fields'.hasToken name token = fields.hasToken name token := by
  rw [Fields.hasToken, Fields.hasToken, Fields.itemsOf, Fields.itemsOf, h]

theorem value?_congr {fields fields' : Fields} {name : String}
    (h : fields'.values name = fields.values name) : fields'.value? name = fields.value? name := by
  rw [Fields.value?_eq_head?, Fields.value?_eq_head?, h]

theorem text?_congr {fields fields' : Fields} {name : String}
    (h : fields'.values name = fields.values name) : fields'.text? name = fields.text? name := by
  rw [Fields.text?, Fields.text?, value?_congr h]

theorem Alike.framing_eq (h : head.Alike head') : head'.framing = head.framing := by
  have hcodings : head'.codings = head.codings := by
    rw [codings, codings, h.values_eq "transfer-encoding" (by decide)]
  have hlength : head'.contentLength? = head.contentLength? := by
    rw [contentLength?, contentLength?, h.values_eq "content-length" (by decide)]
  rw [framing, framing, hcodings, hlength, h.version_eq]

theorem Alike.expectsContinue_eq (h : head.Alike head') :
    head'.expectsContinue = head.expectsContinue := by
  rw [expectsContinue, expectsContinue, h.version_eq,
    text?_congr (h.values_eq "expect" (by decide))]

theorem Alike.keepsAlive_eq (h : head.Alike head') : head'.keepsAlive = head.keepsAlive := by
  have hfields := h.values_eq "connection" (by decide)
  rw [keepsAlive, keepsAlive, h.version_eq, hasToken_congr hfields, hasToken_congr hfields]

theorem Alike.isGzip_eq (h : head.Alike head') : head'.isGzip = head.isGzip :=
  hasToken_congr (h.values_eq "content-encoding" (by decide)) _

theorem Alike.userAgent?_eq (h : head.Alike head') : head'.userAgent? = head.userAgent? :=
  value?_congr (h.values_eq "user-agent" (by decide))

end Head

namespace Exchange

variable {head head' : Head}

/-! ### Responses -/

theorem echoFull_congr (h : head'.isGzip = head.isGzip) (maxBodySize : Nat) (body : Bytes) :
    echoFull head' maxBodySize body = echoFull head maxBodySize body := by
  rw [echoFull, echoFull, h]

/-- The response to a GET request greets the client. -/
theorem respond_get (h : head.method = .get) (echo : EchoPolicy) (maxBodySize : Nat)
    (chunks : List Bytes) :
    (respond head echo maxBodySize chunks).2 = .ok (greeting head.userAgent?) := by
  unfold respond
  rw [if_pos h]

/-- The response to any other request depends on how its body is coded. -/
theorem respond_congr (hmethod : head.method ≠ .get) (hmethod' : head'.method ≠ .get)
    (hgzip : head'.isGzip = head.isGzip) (echo : EchoPolicy) (maxBodySize : Nat)
    (chunks : List Bytes) :
    (respond head' echo maxBodySize chunks).2 = (respond head echo maxBodySize chunks).2 := by
  unfold respond
  rw [if_neg hmethod, if_neg hmethod']
  cases echo with
  | full => rw [echoFull_congr hgzip]
  | firstChunk => rfl

end Exchange

namespace Head

variable {head head' : Head}

/-- **Heads that agree in six fields** and are of the same version and class are treated alike. -/
theorem Alike.treatedLike (h : head.Alike head') : head.TreatedLike head' where
  framing_eq := h.framing_eq
  expectsContinue_eq := h.expectsContinue_eq
  keepsAlive_eq := h.keepsAlive_eq
  respond_eq := by
    intro echo maxBodySize chunks
    by_cases hmethod : head.method = .get
    · rw [Exchange.respond_get hmethod, Exchange.respond_get (h.get_iff.2 hmethod),
        h.userAgent?_eq]
    · exact Exchange.respond_congr hmethod (mt h.get_iff.1 hmethod) h.isGzip_eq _ _ _

/-- A head with another method is treated alike, unless one of the two is GET. -/
theorem treatedLike_of_method {method : Method} (hget : head.method ≠ .get)
    (hmethod : method ≠ .get) : head.TreatedLike { head with method } where
  framing_eq := rfl
  expectsContinue_eq := rfl
  keepsAlive_eq := rfl
  respond_eq := Exchange.respond_congr hget hmethod rfl

end Head

/-! ### Exchanges -/

namespace Exchange

variable {x y : Exchange} {head' : Head} {buffer : Bytes}

/-- An exchange with another head. -/
def withHead (x : Exchange) (head' : Head) : Exchange := { x with head := head' }

/-- How far an exchange has come, if it has another head. -/
def Progress.withHead (head' : Head) : Progress → Progress
  | .waiting x => .waiting (x.withHead head')
  | progress => progress

/-- An exchange keeps its head. -/
theorem head_of_waiting (h : (x.feed buffer).progress = .waiting y) : y.head = x.head := by
  induction x, buffer using feed_induction with
  | chunk x buffer octets hchunk ih =>
    rw [feed_chunk hchunk] at h
    exact ih h
  | stop x buffer hstop =>
    cases houtcome : (x.body.advance buffer).outcome with
    | chunk octets => exact absurd houtcome (hstop octets)
    | complete =>
      rw [feed_complete houtcome] at h
      cases h
    | wait =>
      rw [feed_wait houtcome] at h
      cases h
      rfl
    | refused error =>
      rw [feed_refused houtcome] at h
      cases h

/-- **An exchange with a head that is treated alike** takes the same octets and comes as far. -/
theorem feed_withHead (h : x.head.TreatedLike head') (buffer : Bytes) :
    ((x.withHead head').feed buffer).progress = (x.feed buffer).progress.withHead head' ∧
      ((x.withHead head').feed buffer).rest = (x.feed buffer).rest := by
  induction x, buffer using feed_induction with
  | chunk x buffer octets hchunk ih =>
    have hchunk' : ((x.withHead head').body.advance buffer).outcome = .chunk octets := hchunk
    rw [feed_chunk hchunk, feed_chunk hchunk']
    exact ih h
  | stop x buffer hstop =>
    cases houtcome : (x.body.advance buffer).outcome with
    | chunk octets => exact absurd houtcome (hstop octets)
    | complete =>
      have houtcome' : ((x.withHead head').body.advance buffer).outcome = .complete := houtcome
      rw [feed_complete houtcome, feed_complete houtcome']
      exact ⟨congrArg Progress.answered (h.respond_eq _ _ _), rfl⟩
    | wait =>
      have houtcome' : ((x.withHead head').body.advance buffer).outcome = .wait := houtcome
      rw [feed_wait houtcome, feed_wait houtcome']
      exact ⟨rfl, rfl⟩
    | refused error =>
      have houtcome' : ((x.withHead head').body.advance buffer).outcome = .refused error := houtcome
      rw [feed_refused houtcome, feed_refused houtcome']
      exact ⟨rfl, rfl⟩

end Exchange

end HttpEcho
