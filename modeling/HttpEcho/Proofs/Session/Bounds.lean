import HttpEcho.Proofs.Connection.Bounds
import HttpEcho.Proofs.Session.Failures

/-!
# Bounds of a run

A peer cannot make a connection hold much: whenever more is read, few octets are at hand, the chunks
of one body are within the limit together, and a request other than GET is answered with no more
than a body may have (`Session.bounds_run`).
-/

namespace HttpEcho

open Connection

/-- The octets that a connection holds while it waits. -/
def Connection.Phase.buffer : Phase → Bytes
  | .head _ buffer | .body _ buffer => buffer
  | .idle .. | .ended _ => []

/-- The most octets that a connection holds while it waits. -/
def Settings.maxBuffer (s : Settings) : Nat :=
  max (max s.maxHeaderSize maxLineLength) (s.maxBodySize + 1)

/-- A bounded phase holds no more octets than the settings allow. -/
theorem Connection.Phase.Bounded.length_buffer_le {s : Settings} {method? : Option String}
    {phase : Phase} (h : phase.Bounded s method?) : phase.buffer.length ≤ s.maxBuffer := by
  rw [Settings.maxBuffer, Nat.max_assoc]
  cases h with
  | idle | ended => exact Nat.zero_le _
  | head hlength => exact Nat.le_trans hlength (Nat.le_max_left _ _)
  | body _ _ _ hlength => exact Nat.le_trans hlength (Nat.le_max_right _ _)

namespace Peer

variable {patience : Patience} {p : Peer} {octets : Bytes}

theorem of_readFrom_octets {script : List Move}
    (h : (readFrom patience script p).result = .ok (.octets octets)) :
    .send octets ∈ script ∧ (readFrom patience script p).peer.script <:+ script := by
  fun_induction readFrom patience script p with
  | case2 sent rest p _ _ ih | case7 ms rest p _ ih | case12 rest p _ _ _ _ ih =>
    obtain ⟨hmem, hsuffix⟩ := ih h
    exact ⟨List.mem_cons_of_mem _ hmem, hsuffix.trans (List.suffix_cons _ _)⟩
  | case3 sent rest p _ _ =>
    obtain rfl := Arrival.octets.inj (Except.ok.inj h)
    exact ⟨List.mem_cons_self, List.suffix_cons _ _⟩
  | case1 | case4 | case5 | case6 | case8 | case9 | case10 | case11 => cases h

/-- What a read brings is one of the moves that were left. -/
theorem of_read_octets (h : (p.read patience).result = .ok (.octets octets)) :
    .send octets ∈ p.script ∧ (p.read patience).peer.script <:+ p.script :=
  of_readFrom_octets h

end Peer

namespace Session

variable {s : Settings} {failure? : Option SendFailure} {p peer : Peer} {trace : Trace}
  {phase : Phase} {method? : Option String} {limit : Nat}

/-- What is left of the moves of a peer is their end. -/
theorem Reaches.script_suffix (h : Reaches s p trace phase peer) : peer.script <:+ p.script := by
  induction h with
  | start => exact List.suffix_rfl
  | turn _ _ hr hinput _ ih =>
    subst hr
    exact (Peer.of_read_octets (input?_eq_octets hinput)).2.trans ih

theorem events_append (trace trace' : Trace) :
    Trace.events (trace ++ trace') = Trace.events trace ++ Trace.events trace' :=
  List.map_append

theorem events_shown (now : Nat) (actions : List Action) :
    Trace.events (shown now actions) = eventsOf actions := List.map_map

/-- What the peer does is no request. -/
theorem lastMethod?_of_isOfPeer (h : ∀ stamped ∈ trace, stamped.event.isOfPeer) :
    lastMethod? method? trace.events = method? := by
  induction trace with
  | nil => rfl
  | cons stamped trace ih =>
    obtain ⟨hpeer, hrest⟩ := List.forall_mem_cons.1 h
    have hsame : stamped.event.method? method? = method? := by
      cases hevent : stamped.event <;> rw [hevent] at hpeer <;> first | rfl | cases hpeer
    have hcons : lastMethod? method? (Trace.events (stamped :: trace)) =
        lastMethod? (stamped.event.method? method?) (Trace.events trace) := rfl
    rw [hcons, hsame, ih hrest]

/-- The last request before what is done in a turn. -/
theorem lastMethod?_turn (before : Trace) (patience : Patience) (now : Nat) (front : List Action) :
    lastMethod? none (Trace.events (before ++ ((peer.read patience).trace ++ shown now front))) =
      lastMethod? (lastMethod? none before.events) (eventsOf front) := by
  rw [events_append, lastMethod?_append, events_append, lastMethod?_append, events_shown,
    lastMethod?_of_isOfPeer fun _ => Peer.isOfPeer_of_mem_read]

/-- **Wherever a run comes to wait**, the bounds are kept. -/
theorem Reaches.bounded (h : Reaches s p trace phase peer) :
    phase.Bounded s (lastMethod? none trace.events) := by
  induction h with
  | start => exact .idle
  | turn _ _ hr _ hturn ih =>
    subst hr hturn
    rw [lastMethod?_turn]
    exact (bounded_step ih _).phase

/-- **Whatever is sent** is within the bounds. -/
theorem replyWithin_of_sent {before after : Trace} {time : Nat} {octets : Bytes}
    (h : (run s failure? p).trace = before ++ ⟨time, .sent octets⟩ :: after) :
    ReplyWithin s.maxBodySize (lastMethod? none before.events) octets := by
  obtain ⟨after', hrun⟩ := exists_of_failing h nofun
  have hdoes := does_of_run hrun nofun
  generalize hstamped : (⟨time, .sent octets⟩ : Stamped) = stamped at hdoes
  cases hdoes with
  | @turn trace phase peer r input turn front back action hreach hphase hr hinput hturn hactions =>
    subst hr hturn
    have haction : Action.event action = .sent octets := (congrArg Stamped.event hstamped).symm
    have hturn : (step s (peer.read (patience phase)).peer.now
        (peer.read (patience phase)).peer.isStopping phase input).Bounded s
          (lastMethod? none trace.events) := bounded_step hreach.bounded input
    have hreplies := hturn.replies
    rw [hactions, eventsOf_append] at hreplies
    rw [lastMethod?_turn]
    exact (repliesWithin_append.1 hreplies).2.1 octets haction

/-! ### Bounds -/

/-- What a connection holds, and what it answers, is bounded, whatever its peer does. -/
structure Bounds (s : Settings) (failure? : Option SendFailure) (p : Peer) : Prop where
  /-- More is read only while few octets are at hand. -/
  waits : ∀ {trace phase peer}, Reaches s p trace phase peer → phase.buffer.length ≤ s.maxBuffer
  /-- So there are never more than those and what one read brings. -/
  arrives : ∀ {most : Nat}, (∀ octets, .send octets ∈ p.script → octets.length ≤ most) →
    ∀ {trace phase peer octets}, Reaches s p trace phase peer →
      (peer.read (patience phase)).result = .ok (.octets octets) →
        (phase.buffer ++ octets).length ≤ s.maxBuffer + most
  /-- All chunks of one body are within the limit together. -/
  chunks : ∀ framing buffer peer n,
    ((Source.calls n ⟨.ofFraming framing s.maxBodySize, buffer, peer⟩).flatMap Call.octets).length ≤
      s.maxBodySize
  received : ∀ {trace exchange buffer peer}, Reaches s p trace (.body exchange buffer) peer →
    exchange.received.flatten.length ≤ s.maxBodySize
  /-- A success has a short body, unless the last request before it is a GET. -/
  replies : ∀ {before after : Trace} {time} {r : Response} {persistence headOnly},
    (run s failure? p).trace = before ++ ⟨time, .sent (r.encode persistence headOnly)⟩ :: after →
      r.status = .ok → lastMethod? none before.events ≠ some Method.get.token →
        r.body.length ≤ s.maxBodySize

/-- **A peer cannot make a connection hold or answer much.** -/
theorem bounds_run (s : Settings) (failure? : Option SendFailure) (p : Peer) :
    Bounds s failure? p where
  waits h := h.bounded.length_buffer_le
  arrives hmost _ _ _ _ h hread := by
    have hlength := hmost _ (h.script_suffix.subset (Peer.of_read_octets hread).1)
    rw [List.length_append]
    exact Nat.add_le_add h.bounded.length_buffer_le hlength
  chunks framing buffer peer n := Source.sum_calls_le framing s.maxBodySize buffer peer n
  received h := by
    cases h.bounded with
    | body hwithin hlimit _ _ =>
      rw [hwithin.received_eq, ← hlimit, ← hwithin.limit_eq]
      exact hwithin.body.received_le
  replies h hok hget := by
    obtain ⟨method, hmethod, hbody⟩ := replyWithin_of_sent h _ _ _ rfl hok
    exact hbody fun heq => hget (heq ▸ hmethod)

end Session

end HttpEcho
