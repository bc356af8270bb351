import HttpEcho.Proofs.Connection.Turns
import HttpEcho.Proofs.Head.Grammar
import HttpEcho.Proofs.Reply

/-!
# Requests one after the other

A `RequestText` is a well-formed request as it is written, and `answers` is what is sent in answer
to a sequence of requests. `Connection.Phase.Awaits` is the invariant of a connection to which such
a sequence is being sent: in each phase, what is there of the stream and what is to come of it make
up the requests that are not answered yet. A step keeps it, however much arrives
(`Connection.serves_step`).
-/

namespace HttpEcho

/-- A well-formed request as it is written: a head, and a text that carries a body in the way that
the head announces. -/
structure RequestText where
  head : HeadText
  framing : Framing
  text : Bytes
  body : Bytes
  framing_eq : head.head.framing = .ok framing
  frames : framing.Frames text body

namespace RequestText

/-- The request on the wire. -/
def wire (r : RequestText) : Bytes := r.head.wire ++ r.text

/-- The request is within the limits: its head stays below the largest header size by the part of
an ending that may be there without the rest, and its body has room. -/
structure Fits (s : Settings) (r : RequestText) : Prop where
  head_le : r.head.wire.length + 3 ≤ s.maxHeaderSize + headEnd.length
  body_le : r.body.length ≤ s.maxBodySize

/-- The go-ahead, if the client waits for it. -/
def goAhead (r : RequestText) : List Bytes :=
  if r.head.head.expectsContinue ∧ r.framing ≠ .empty then [continueResponse] else []

/-- The response on the wire. -/
def response (s : Settings) (r : RequestText) : Bytes :=
  (r.head.head.reply s.maxBodySize r.body).encode
    (if r.head.head.keepsAlive then .keepAlive (.ofMilliseconds s.keepAliveTimeout) else .close)
    (r.head.head.method = .head)

theorem length_wire_pos (r : RequestText) : 0 < r.wire.length := by
  rw [wire, HeadText.wire, List.length_append, List.length_append, List.length_append,
    List.length_append]
  have hending : headEnd.length = 4 := rfl
  omega

end RequestText

/-- What is sent in answer to requests that come one after the other, up to the first one that does
not let the connection stay open. -/
def answers (s : Settings) : List RequestText → List Bytes
  | [] => []
  | r :: requests =>
    r.goAhead ++ r.response s :: if r.head.head.keepsAlive then answers s requests else []

namespace Connection

open RequestText (wire)

/-- The octets that an action sends. -/
def Action.octets? : Action → Option Bytes
  | .send octets => some octets
  | _ => none

/-- What remains to be sent once the head of a request is answered. -/
def remaining (s : Settings) (r : RequestText) (requests : List RequestText) : List Bytes :=
  r.response s :: if r.head.head.keepsAlive then answers s requests else []

/-- A phase in which requests are awaited, of which the stream is still to come, and what is sent
from then on. -/
inductive Phase.Awaits (s : Settings) (stream : Bytes) : Phase → List Bytes → Prop
  | idle {first : Bool} {deadline : Nat} {requests : List RequestText}
      (hfits : ∀ r ∈ requests, r.Fits s) (hstream : stream = requests.flatMap wire) :
      Awaits s stream (.idle first deadline) (answers s requests)
  | head {deadline : Nat} {buffer : Bytes} {r : RequestText} {requests : List RequestText}
      (hfits : ∀ q ∈ r :: requests, q.Fits s)
      (hbuffer : buffer ++ stream = (r :: requests).flatMap wire)
      (hlt : buffer.length < r.head.wire.length) :
      Awaits s stream (.head deadline buffer) (answers s (r :: requests))
  | body {x : Exchange} {buffer text : Bytes} {r : RequestText} {requests : List RequestText}
      (hfits : ∀ q ∈ requests, q.Fits s) (hhead : x.head = r.head.head)
      (hlimit : x.maxBodySize = s.maxBodySize) (hx : x.Awaits text r.body)
      (hbuffer : buffer ++ stream = text ++ requests.flatMap wire)
      (hlt : buffer.length < text.length) :
      Awaits s stream (.body x buffer) (remaining s r requests)
  | ended : Awaits s stream (.ended .closed) []

/-- A turn sends the beginning of what is expected and leads to a phase that awaits the rest. -/
def Turn.Serves (s : Settings) (stream : Bytes) (expected : List Bytes) (turn : Turn) : Prop :=
  ∃ later, turn.phase.Awaits s stream later ∧
    turn.actions.filterMap Action.octets? ++ later = expected

/-- The same of what an exchange leads to: before the next request, the octets that are left begin
the requests that follow. -/
def Settled.Serves (s : Settings) (stream : Bytes) (requests : List RequestText)
    (expected : List Bytes) : Settled → Prop
  | .turn t => t.Serves s stream expected
  | .next actions left => left ++ stream = requests.flatMap wire ∧
      actions.filterMap Action.octets? ++ answers s requests = expected

section Turns

variable {s : Settings} {stream : Bytes} {requests : List RequestText} {expected : List Bytes}

theorem filterMap_logs (notices : List Notice) :
    (notices.map Action.log).filterMap Action.octets? = [] := by
  rw [List.filterMap_map]
  exact List.filterMap_eq_nil_iff.2 fun _ _ => rfl

theorem Turn.Serves.after {turn : Turn} (h : turn.Serves s stream expected)
    (actions : List Action) :
    (turn.after actions).Serves s stream (actions.filterMap Action.octets? ++ expected) := by
  obtain ⟨later, hphase, rfl⟩ := h
  refine ⟨later, hphase, ?_⟩
  rw [Turn.after, List.filterMap_append, List.append_assoc]

theorem Settled.Serves.after {settled : Settled} (h : settled.Serves s stream requests expected)
    (actions : List Action) :
    (settled.after actions).Serves s stream requests
      (actions.filterMap Action.octets? ++ expected) := by
  cases settled with
  | turn t => exact Turn.Serves.after h actions
  | next more left =>
    obtain ⟨hleft, rfl⟩ := h
    refine ⟨hleft, ?_⟩
    rw [List.filterMap_append, List.append_assoc]

/-- The response that is sent is the expected one. -/
theorem encodeResponse_eq (htimeout : 0 < s.keepAliveTimeout) (r : RequestText) :
    encodeResponse s false r.head.head (r.head.head.reply s.maxBodySize r.body) = r.response s ∧
      keepsOpen s false r.head.head = r.head.head.keepsAlive := by
  have hopen : keepsOpen s false r.head.head = r.head.head.keepsAlive := by
    have henabled : s.keepAliveEnabled = true := decide_eq_true (Nat.ne_of_gt htimeout)
    rw [keepsOpen, henabled, Bool.and_true, Bool.not_false, Bool.and_true]
  refine ⟨?_, hopen⟩
  rw [encodeResponse, hopen]
  rfl

/-- Feeding an exchange sends its response and leaves the requests that follow it, or waits. -/
theorem serves_settle (htimeout : 0 < s.keepAliveTimeout) {x : Exchange} {buffer text : Bytes}
    {r : RequestText} (hfits : ∀ q ∈ requests, q.Fits s) (hhead : x.head = r.head.head)
    (hlimit : x.maxBodySize = s.maxBodySize) (hx : x.Awaits text r.body)
    (hbuffer : buffer ++ stream = text ++ requests.flatMap wire) :
    (settle s false r.head.head (x.feed buffer)).Serves s stream requests
      (remaining s r requests) := by
  obtain ⟨hresponse, hopen⟩ := encodeResponse_eq htimeout r
  have hlogs := filterMap_logs (x.feed buffer).notices
  have hfeed := x.delivers_feed buffer hx hbuffer
  rw [Exchange.Fed.Delivers] at hfeed
  cases hprogress : (x.feed buffer).progress with
  | waiting y =>
    rw [hprogress] at hfeed
    obtain ⟨hyhead, hylimit, text', hy, hrest, hlt⟩ := hfeed
    rw [settle_of_waiting hprogress]
    refine ⟨_, .body hfits (hyhead.trans hhead) (hylimit.trans hlimit) hy hrest hlt, ?_⟩
    dsimp only
    rw [hlogs, List.nil_append]
  | answered response =>
    rw [hprogress] at hfeed
    obtain ⟨hreply, hrest⟩ := hfeed
    rw [hhead, hlimit] at hreply
    subst hreply
    have hsent : ((x.feed buffer).notices.map Action.log ++
        [Action.send (encodeResponse s false r.head.head
          (r.head.head.reply s.maxBodySize r.body))]).filterMap Action.octets? =
            [r.response s] := by
      rw [List.filterMap_append, hlogs, hresponse]
      rfl
    -- whether the connection stays open is up to the client alone
    by_cases hkeeps : keepsOpen s false r.head.head
    · rw [settle_of_keepsOpen hprogress hkeeps]
      refine ⟨hrest, ?_⟩
      rw [hsent, remaining, if_pos (hopen ▸ hkeeps)]
      rfl
    · rw [settle_of_not_keepsOpen hprogress hkeeps]
      refine ⟨[], .ended, ?_⟩
      rw [Turn.after, List.filterMap_append, hsent, remaining, if_neg (hopen ▸ hkeeps)]
      rfl
  | refused error =>
    rw [hprogress] at hfeed
    exact hfeed.elim

theorem filterMap_announce (r : RequestText) :
    (announce r.head.head r.framing).filterMap Action.octets? = r.goAhead := by
  rw [announce, RequestText.goAhead]
  by_cases hexpects : r.head.head.expectsContinue ∧ r.framing ≠ .empty
  · have hand : (r.head.head.expectsContinue && r.framing ≠ .empty) = true :=
      Bool.and_eq_true_iff.2 ⟨hexpects.1, decide_eq_true hexpects.2⟩
    rw [if_pos hexpects, if_pos hand]
    rfl
  · have hand : ¬ (r.head.head.expectsContinue && r.framing ≠ .empty) = true := by
      rw [Bool.and_eq_true_iff, decide_eq_true_iff]
      exact hexpects
    rw [if_neg hexpects, if_neg hand]
    rfl

/-- A request whose head is there is answered, or its body is awaited. -/
theorem serves_answer (hecho : s.echo = .full) (htimeout : 0 < s.keepAliveTimeout)
    {r : RequestText} {rest : Bytes} (hfit : r.Fits s) (hfits : ∀ q ∈ requests, q.Fits s)
    (hrest : rest ++ stream = r.text ++ requests.flatMap wire) :
    (answer s false r.head.head rest).Serves s stream requests
      (r.goAhead ++ remaining s r requests) := by
  have hx : (Exchange.start s.echo s.maxBodySize r.head.head r.framing).Awaits r.text r.body :=
    hecho ▸ Exchange.awaits_start r.framing_eq r.frames hfit.body_le
  have hlength : ∀ n, r.framing = .length n → n ≤ s.maxBodySize := by
    intro n hn
    have hbody : r.body.length = n := Framing.Frames.length_eq (hn ▸ r.frames)
    exact hbody ▸ hfit.body_le
  rw [answer_of_framing r.framing_eq hlength, ← filterMap_announce]
  exact (serves_settle htimeout hfits rfl rfl hx hrest).after _

/-- Going on serves what follows if the requests that follow are served. -/
theorem Settled.Serves.goOn {now : Nat} {settled : Settled}
    (h : settled.Serves s stream requests expected) (hfits : ∀ r ∈ requests, r.Fits s)
    (hserve : ∀ deadline buffer, buffer ≠ [] → buffer ++ stream = requests.flatMap wire →
      (serve s now false deadline buffer).Serves s stream (answers s requests)) :
    (settled.goOn s now false).Serves s stream expected := by
  cases settled with
  | turn t => exact h
  | next actions rest =>
    obtain ⟨hrest, rfl⟩ := h
    cases rest with
    | nil => exact ⟨answers s requests, .idle hfits hrest, rfl⟩
    | cons b rest => exact (hserve _ _ (List.cons_ne_nil b rest) hrest).after actions

/-- **Requests that arrive together** are answered one after the other, as far as they are there. -/
theorem serves_serve (hecho : s.echo = .full) (htimeout : 0 < s.keepAliveTimeout) (now : Nat)
    (requests : List RequestText) (hfits : ∀ r ∈ requests, r.Fits s) (deadline : Nat)
    (buffer : Bytes) (hne : buffer ≠ []) (hbuffer : buffer ++ stream = requests.flatMap wire) :
    (serve s now false deadline buffer).Serves s stream (answers s requests) := by
  induction requests generalizing deadline buffer with
  | nil => exact absurd (List.append_eq_nil_iff.1 hbuffer).1 hne
  | cons r requests ih =>
    obtain ⟨hfit, hfits'⟩ := List.forall_mem_cons.1 hfits
    have hheadLe := hfit.head_le
    have hending : headEnd.length = 4 := rfl
    have hsplit : buffer ++ stream = r.head.wire ++ (r.text ++ requests.flatMap wire) := by
      rw [hbuffer, List.flatMap_cons, wire, List.append_assoc]
    rcases Nat.lt_or_ge buffer.length r.head.wire.length with hlt | hle
    · -- what is there of the head is no longer than the limit, even inside its ending
      have hparse : Head.parse s.maxHeaderSize buffer = .error .incomplete :=
        Head.parse_of_append_eq_wire r.head hsplit hlt (by omega)
      rw [serve_of_incomplete hparse]
      exact ⟨answers s (r :: requests), .head hfits hbuffer hlt, rfl⟩
    · obtain ⟨htake, hdrop⟩ := Bytes.split_of_append_eq hsplit hle
      have hparse : Head.parse s.maxHeaderSize buffer = .ok (r.head.head, r.head.wire.length) := by
        rw [← List.take_append_drop r.head.wire.length buffer, htake, Head.parse_wire_append,
          if_neg (by omega)]
      rw [serve_of_ok hparse]
      exact (serves_answer hecho htimeout hfit hfits' hdrop).goOn hfits' (ih hfits')

/-- **A step keeps the requests served**: what it sends is the beginning of what is expected, and
the phase after it awaits the rest. -/
theorem serves_step (hecho : s.echo = .full) (htimeout : 0 < s.keepAliveTimeout) (now : Nat)
    {phase : Phase} {octets : Bytes} (hoctets : octets ≠ [])
    (h : phase.Awaits s (octets ++ stream) expected) :
    (step s now false phase (.octets octets)).Serves s stream expected := by
  cases h with
  | idle hfits hstream => exact serves_serve hecho htimeout now _ hfits _ octets hoctets hstream
  | @head deadline buffer r requests hfits hbuffer hlt =>
    refine serves_serve hecho htimeout now _ hfits deadline (buffer ++ octets) ?_ ?_
    · exact List.append_ne_nil_of_right_ne_nil _ hoctets
    · rw [List.append_assoc, hbuffer]
  | @body x buffer text r requests hfits hhead hlimit hx hbuffer hlt =>
    have hmore : (buffer ++ octets) ++ stream = text ++ requests.flatMap wire := by
      rw [List.append_assoc, hbuffer]
    -- the head was answered before; only the body of the request is still to come
    have hsettle := serves_settle htimeout hfits hhead hlimit hx hmore
    rw [← hhead] at hsettle
    change (resume s now false x (buffer ++ octets)).Serves s stream _
    rw [resume_eq_goOn]
    exact hsettle.goOn hfits (serves_serve hecho htimeout now _ hfits)
  | ended => exact ⟨[], .ended, rfl⟩

/-- At the end of the stream every request is answered. -/
theorem expected_eq_nil {phase : Phase} (h : phase.Awaits s [] expected) : expected = [] := by
  cases h with
  | @idle first deadline requests hfits hstream =>
    cases requests with
    | nil => rfl
    | cons r requests =>
      have hlength := congrArg List.length hstream
      rw [List.flatMap_cons, List.length_append, List.length_nil] at hlength
      have hpos := r.length_wire_pos
      omega
  -- a phase that waits for more of a request is short of octets, and none are to come
  | @head deadline buffer r requests hfits hbuffer hlt =>
    have hlength := congrArg List.length hbuffer
    rw [List.flatMap_cons, wire, List.length_append, List.length_append, List.length_append,
      List.length_nil] at hlength
    omega
  | @body x buffer text r requests hfits hhead hlimit hx hbuffer hlt =>
    have hlength := congrArg List.length hbuffer
    rw [List.length_append, List.length_append, List.length_nil] at hlength
    omega
  | ended => rfl

/-- The end of the input ends the connection, and nothing more is sent. -/
theorem sends_step_endOfInput {now : Nat} {stopping : Bool} {phase : Phase}  :
    (step s now stopping phase .endOfInput).actions.filterMap Action.octets? = [] := by
  cases phase <;> rfl

end Turns

end Connection

end HttpEcho
