import HttpEcho.Proofs.Connection.Pipeline
import HttpEcho.Proofs.Session.Requests
import HttpEcho.Proofs.Session.Turns

/-!
# Pipelined requests

A peer that sends one well-formed request after the other is sent the answers to them, in order and
nothing else, into whatever pieces its octets are cut (`Session.sends_run_of_requests`).
-/

namespace HttpEcho

open Connection

namespace Peer

/-- The peer sends the octets of a stream, in pieces of any size and without a wait, and then closes
its side. Nobody tells the server to stop. -/
structure Streams (p : Peer) (stream : Bytes) : Prop where
  script_eq : ∃ parts : List Bytes, p.script = parts.map .send ∧ parts.flatten = stream
  stopped_eq : p.stopped = false
  stopAt_eq : p.stopAt = none

theorem Streams.isStopping_eq {p : Peer} {stream : Bytes} (h : p.Streams stream) :
    p.isStopping = false := by
  rw [isStopping, h.stopped_eq, h.stopAt_eq]
  rfl

/-- What a read may give when a stream is still to come: octets from the front of it, or its end. -/
def Continues (stream : Bytes) (r : Reading) : Prop :=
  (∃ octets stream', r.result = .ok (.octets octets) ∧ octets ≠ [] ∧ stream = octets ++ stream' ∧
    r.peer.Streams stream') ∨
  r.result = .ok .endOfInput ∧ stream = []

theorem continues_readFrom (patience : Patience) (parts : List Bytes) :
    ∀ p : Peer, p.stopped = false → p.stopAt = none →
      Continues parts.flatten (readFrom patience (parts.map .send) p) := by
  induction parts with
  | nil => exact fun p _ _ => .inr ⟨rfl, rfl⟩
  | cons part parts ih =>
    intro p hstopped hstopAt
    rw [List.map_cons, readFrom]
    split
    case isTrue hempty =>
      rw [List.isEmpty_iff.1 hempty]
      exact ih _ hstopped hstopAt
    case isFalse hempty =>
      have hne : part ≠ [] := fun hnil => hempty (hnil ▸ rfl)
      exact .inl ⟨part, parts.flatten, rfl, hne, List.flatten_cons, ⟨parts, rfl, rfl⟩, hstopped,
        hstopAt⟩

/-- **A read takes octets from the front of the stream**, or comes to its end. -/
theorem Streams.continues_read {p : Peer} {stream : Bytes} (h : p.Streams stream)
    (patience : Patience) :
    Continues stream (p.read patience) := by
  obtain ⟨⟨parts, hscript, rfl⟩, hstopped, hstopAt⟩ := h
  rw [read, hscript]
  exact continues_readFrom patience parts p hstopped hstopAt

end Peer

namespace Session

variable {s : Settings}

theorem sends_shown (now : Nat) (actions : List Action) :
    Trace.sends (shown now actions) = actions.filterMap Action.octets? := by
  induction actions with
  | nil => rfl
  | cons action actions ih =>
    cases action with
    | log | close => exact ih
    | send octets => exact congrArg (octets :: ·) ih

/-- Without a failure a turn comes out as it is. -/
theorem sends_take (phase : Phase) (sends : Nat) (peer : Peer) (input : Input) :
    (take s none phase sends peer input).phase =
        (step s peer.now peer.isStopping phase input).phase ∧
      (take s none phase sends peer input).trace.sends =
        (step s peer.now peer.isStopping phase input).actions.filterMap Action.octets? := by
  obtain ⟨hphase, htrace⟩ := take_none s phase sends peer input
  exact ⟨hphase, htrace ▸ sends_shown _ _⟩

/-- The run from a phase on sends what is expected of it, and ends in order. -/
theorem sends_runFrom (hecho : s.echo = .full) (htimeout : 0 < s.keepAliveTimeout) (phase : Phase)
    (sends : Nat) (peer : Peer) :
    ∀ stream expected, peer.Streams stream → phase.Awaits s stream expected →
      (runFrom s none phase sends peer).trace.sends = expected ∧
        (runFrom s none phase sends peer).ending = some .closed := by
  fun_induction runFrom s none phase sends peer with
  | case1 sends peer ending =>
    intro stream expected _ h
    cases h with
    | ended => exact ⟨rfl, rfl⟩
  | case2 phase sends peer hphase r hi =>
    intro stream expected hpeer _
    have hread : Peer.Continues stream r := hpeer.continues_read _
    rcases hread with ⟨octets, stream', hresult, -⟩ | ⟨hresult, -⟩
    all_goals
      rw [hresult] at hi
      cases hi
  | case3 phase sends peer octets hphase r hi took ih =>
    intro stream expected hpeer h
    have hread : Peer.Continues stream r := hpeer.continues_read _
    have hsilent : r.trace.sends = [] := peer.sends_read _
    have hresult : r.result = .ok (.octets octets) := input?_eq_octets hi
    -- the octets that are read come from the front of the stream
    rcases hread with ⟨octets', stream', hresult', hne, rfl, hstreams⟩ | ⟨hresult', -⟩
    · obtain rfl : octets' = octets := by
        rw [hresult'] at hresult
        exact Arrival.octets.inj (Except.ok.inj hresult)
      obtain ⟨htook, hsent⟩ : took.phase = _ ∧ took.trace.sends = _ := sends_take _ _ _ _
      rw [hstreams.isStopping_eq] at htook hsent
      obtain ⟨later, hlater, rfl⟩ := serves_step hecho htimeout r.peer.now hne h
      rw [← htook] at hlater
      obtain ⟨hrest, hending⟩ := ih stream' later hstreams hlater
      refine ⟨?_, hending⟩
      rw [Run.after, Trace.sends_append, Trace.sends_append, hsilent, hsent, hrest, List.nil_append]
    · rw [hresult'] at hresult
      cases hresult
  | case4 phase sends peer input hinput hphase r hi took =>
    -- what comes without octets is the end of the stream, and nothing more is expected
    intro stream expected hpeer h
    have hread : Peer.Continues stream r := hpeer.continues_read _
    have hsilent : r.trace.sends = [] := peer.sends_read _
    rcases hread with ⟨octets, stream', hresult, -⟩ | ⟨hresult, rfl⟩
    · rw [hresult] at hi
      exact absurd (Option.some.inj hi).symm (hinput octets)
    · rw [hresult] at hi
      obtain rfl : Input.endOfInput = input := Option.some.inj hi
      obtain ⟨htook, hsent⟩ : took.phase = _ ∧ took.trace.sends = _ := sends_take _ _ _ _
      rw [sends_step_endOfInput] at hsent
      refine ⟨?_, ?_⟩
      · rw [Trace.sends_append, hsilent, hsent, expected_eq_nil h]
        rfl
      · rw [htook]
        cases phase with
        | idle | head | body => rfl
        | ended ending => exact absurd rfl (hphase ending)

/-- **Pipelined requests are answered in order**, however their octets are cut into reads: what is
sent are the answers to them, up to the first one that does not let the connection stay open. -/
theorem sends_run_of_requests (s : Settings) (hecho : s.echo = .full)
    (htimeout : 0 < s.keepAliveTimeout) (requests : List RequestText)
    (hfits : ∀ r ∈ requests, r.Fits s) (peer : Peer)
    (hpeer : peer.Streams (requests.flatMap RequestText.wire)) :
    (run s none peer).trace.sends = answers s requests ∧
      (run s none peer).ending = some .closed :=
  sends_runFrom hecho htimeout _ 0 peer _ _ hpeer (.idle hfits rfl)

/-- A POST request with a body of two octets. -/
def postHi : RequestText where
  head :=
    { blankLines := 0
      line :=
        { method := "POST", target := "/", version := .http11
          method_ne_empty := by decide +kernel
          method_token := by decide +kernel
          target_ne_empty := by decide +kernel
          target_allowed := by decide +kernel }
      fields :=
        [{ name := "Content-Length", before := [0x20], value := Utf8.encode "2", after := []
           name_ne_empty := by decide +kernel
           name_token := by decide +kernel
           before_padding := by decide +kernel
           after_padding := by decide +kernel
           value_allowed := by decide +kernel
           value_head := by decide +kernel
           value_last := by decide +kernel }]
      length_fields_le := by decide +kernel }
  framing := .length 2
  text := Utf8.encode "hi"
  body := Utf8.encode "hi"
  framing_eq := by rfl
  frames := @Framing.Frames.length (Utf8.encode "hi")

/-- A GET request that does not let the connection stay open, after a blank line. -/
def getRoot : RequestText where
  head :=
    { blankLines := 1
      line :=
        { method := "GET", target := "/", version := .http10
          method_ne_empty := by decide +kernel
          method_token := by decide +kernel
          target_ne_empty := by decide +kernel
          target_allowed := by decide +kernel }
      fields := []
      length_fields_le := by decide +kernel }
  framing := .empty
  text := []
  body := []
  framing_eq := by rfl
  frames := .empty

/-- The two requests one after the other, cut in the middle of the body of the first one. -/
def postHiGetRoot : List Bytes :=
  [Utf8.encode "POST / HTTP/1.1\r\nContent-Length: 2\r\n\r\nh",
    Utf8.encode "i\r\nGET / HTTP/1.0\r\n\r\n"]

/-- Two requests that arrive in three parts, one of them cut in its body, are answered in order. -/
theorem sends_run_postHiGetRoot :
    (run {} none { script := postHiGetRoot.map .send }).trace.sends =
      [Utf8.encode ("HTTP/1.1 200 OK\r\nServer: keepalive-echo\r\nContent-Length: 2\r\n" ++
          "Connection: keep-alive\r\nKeep-Alive: timeout=10\r\n\r\nhi"),
        Utf8.encode ("HTTP/1.1 200 OK\r\nServer: keepalive-echo\r\nContent-Length: 16\r\n" ++
          "Connection: close\r\n\r\nhello undefined\n")] := by
  have hfits : ∀ r ∈ [postHi, getRoot], r.Fits {} :=
    List.forall_mem_cons.2
      ⟨⟨by decide, by decide⟩, List.forall_mem_singleton.2 ⟨by decide, by decide⟩⟩
  have hstreams : Peer.Streams { script := postHiGetRoot.map .send }
      ([postHi, getRoot].flatMap RequestText.wire) :=
    ⟨⟨postHiGetRoot, rfl, rfl⟩, rfl, rfl⟩
  rw [(sends_run_of_requests {} rfl (by decide) [postHi, getRoot] hfits _ hstreams).1]
  decide +kernel

end Session

end HttpEcho
