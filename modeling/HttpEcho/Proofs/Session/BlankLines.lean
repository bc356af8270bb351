import HttpEcho.Proofs.Head.BlankLines
import HttpEcho.Proofs.Session.Settling
import HttpEcho.Proofs.Session.Failures

/-!
# Blank lines between requests

Blank lines in front of a request, or behind the last one, make no difference to what is sent as
long as the head that follows them is settled by the time at which it would be due had it begun with
them, and begins while it would be awaited without them (`Session.sends_run_of_leavesOut`). That is
not always so: a connection that has received blank lines counts them as the beginning of a head, so
that it reports a timeout if nothing follows, where an idle connection closes and sends nothing.

Where a piece of the stream is nothing but blank lines, a move without octets is left in its place.
Such a move makes no difference either (`Session.sends_run_of_send_nil`).
-/

namespace HttpEcho.Session

open Connection

/-- The second moves leave out octets that are sent at the front of the first ones, in any number of
pieces and with waits between them. -/
inductive LeavesOut : Bytes → List Move → List Move → Prop
  | same (moves : List Move) : LeavesOut [] moves moves
  | all {octets rest : Bytes} {moves moves' : List Move} : LeavesOut rest moves moves' →
      LeavesOut (octets ++ rest) (.send octets :: moves) (.send [] :: moves')
  | last (rest octets : Bytes) (moves : List Move) :
      LeavesOut rest (.send (rest ++ octets) :: moves) (.send octets :: moves)
  | wait {ms : Nat} {rest : Bytes} {moves moves' : List Move} : LeavesOut rest moves moves' →
      LeavesOut rest (.wait ms :: moves) (.wait ms :: moves')

/-- The octets that moves send before an end of input, a failure or silence for ever. -/
def incoming : List Move → Bytes
  | .send octets :: rest => octets ++ incoming rest
  | .wait _ :: rest | .stopServer :: rest => incoming rest
  | [] | .close :: _ | .fail _ :: _ | .hang :: _ => []

/-- What settles a head, with blank lines in front of it. -/
def Settlement.behind (k : Nat) : Settlement → Settlement
  | .verdict buffer left => .verdict (Bytes.blank k ++ buffer) left
  | .cutShort => .cutShort

/-- When and how a head is settled, with blank lines in front of it. -/
def settledBehind (k : Nat) (settled? : Option (Nat × Settlement)) : Option (Nat × Settlement) :=
  settled?.map fun (time, settlement) => (time, settlement.behind k)

variable {s : Settings} {limit now time deadline j k : Nat} {buffer rest : Bytes}
  {moves moves' : List Move} {settlement : Settlement}

open Head (HasRoom parse_blank parse_blank_append parse_of_append_eq_blank)

/-! ### When a head behind blank lines is settled -/

/-- Empty lines before a head for which there is room do not make it complete or incomplete. -/
theorem incomplete_blank_append_iff (h : HasRoom limit k buffer) :
    Head.parse limit (Bytes.blank k ++ buffer) = .error .incomplete ↔
      Head.parse limit buffer = .error .incomplete := by
  rw [parse_blank_append h]
  cases Head.parse limit buffer with
  | error error => exact Iff.rfl
  | ok parsed => exact ⟨nofun, nofun⟩

/-- **Blank lines in front of a head** do not change when and how it is settled. -/
theorem settles_blank_append (h : HasRoom limit k (buffer ++ incoming moves)) :
    settles limit now (Bytes.blank k ++ buffer) moves =
      settledBehind k (settles limit now buffer moves) := by
  induction moves generalizing now buffer with
  | nil => rfl
  | cons move moves ih =>
    cases move with
    | send octets =>
      rw [incoming, ← List.append_assoc] at h
      have hiff := incomplete_blank_append_iff h.of_append
      rw [← List.append_assoc] at hiff
      by_cases hparse : Head.parse limit (buffer ++ octets) = .error .incomplete
      · rw [settles_of_incomplete hparse, settles_of_incomplete (hiff.2 hparse), List.append_assoc]
        exact ih h
      · rw [settles_of_not_incomplete hparse, settles_of_not_incomplete (mt hiff.1 hparse),
          List.append_assoc]
        rfl
    | wait | stopServer => exact ih h
    | close | fail | hang => rfl

/-- The octets that settle a head are the first ones of the stream. -/
theorem isPrefix_of_settles {left : List Move} {octets : Bytes}
    (h : settles limit now buffer moves = some (time, .verdict octets left)) :
    Head.parse limit octets ≠ .error .incomplete ∧ octets <+: buffer ++ incoming moves := by
  induction moves generalizing now buffer with
  | nil => cases h
  | cons move moves ih =>
    cases move with
    | send octets' =>
      rw [incoming, ← List.append_assoc]
      by_cases hparse : Head.parse limit (buffer ++ octets') = .error .incomplete
      · rw [settles_of_incomplete hparse] at h
        exact ih h
      · rw [settles_of_not_incomplete hparse] at h
        cases h
        exact ⟨hparse, List.prefix_append _ _⟩
    | wait | stopServer => exact ih h
    | close | fail | hang => cases h

/-- **Blank lines that are left out** do not change when and how the head behind them is settled. -/
theorem settles_of_leavesOut (h : LeavesOut rest moves moves')
    (hbuffer : buffer ++ rest = Bytes.blank (k + j))
    (hroom : HasRoom limit k (Bytes.blank j ++ incoming moves')) :
    settles limit now buffer moves =
      settledBehind k (settles limit now (Bytes.blank j) moves') := by
  have hlimit := hroom.two_mul_le
  induction h generalizing now buffer with
  | same moves =>
    rw [List.append_nil, Bytes.blank_add] at hbuffer
    exact hbuffer ▸ settles_blank_append hroom
  | @all octets rest moves moves' _ ih =>
    rw [← List.append_assoc] at hbuffer
    have hblank : Head.parse limit (Bytes.blank j ++ []) = .error .incomplete := by
      rw [List.append_nil]
      exact parse_blank (by omega)
    rw [settles_of_incomplete (parse_of_append_eq_blank hbuffer hlimit),
      settles_of_incomplete hblank, List.append_nil]
    exact ih hbuffer hroom
  | last rest octets moves =>
    have hmore : buffer ++ (rest ++ octets) = Bytes.blank k ++ Bytes.blank j ++ octets := by
      rw [← List.append_assoc, hbuffer, Bytes.blank_add]
    rw [← settles_blank_append hroom, settles, settles, hmore]
  | wait _ ih => exact ih hbuffer hroom

/-! ### What is sent -/

/-- A head is answered alike behind blank lines. -/
theorem serve_blank_append {stopping : Bool} (h : HasRoom s.maxHeaderSize k buffer)
    (hparse : Head.parse s.maxHeaderSize buffer ≠ .error .incomplete) :
    serve s now stopping deadline (Bytes.blank k ++ buffer) =
      serve s now stopping deadline buffer := by
  have hblank := parse_blank_append h
  cases hbuffer : Head.parse s.maxHeaderSize buffer with
  | error error =>
    rw [hbuffer] at hblank
    have hne : error ≠ .incomplete := fun heq => hparse (heq ▸ hbuffer)
    rw [serve_of_error hbuffer hne, serve_of_error hblank hne]
  | ok parsed =>
    rw [hbuffer] at hblank
    rw [serve_of_ok hbuffer, serve_of_ok hblank, ← Bytes.length_blank, List.drop_length_add_append]

/-- What is sent once a head is settled does not depend on empty lines before it. -/
theorem sends_behind {stopped : Bool}
    (hsettles : settles s.maxHeaderSize now buffer moves = some (time, settlement))
    (hroom : HasRoom s.maxHeaderSize k (buffer ++ incoming moves)) :
    (settlement.behind k).sends s time stopped = settlement.sends s time stopped := by
  cases settlement with
  | cutShort => rfl
  | verdict octets left =>
    obtain ⟨hparse, more, hmore⟩ := isPrefix_of_settles hsettles
    rw [← hmore] at hroom
    rw [Settlement.behind, Settlement.sends, Settlement.sends,
      serve_blank_append hroom.of_append hparse]

/-- **Blank lines that are left out** do not change what is sent if a head is awaited. -/
theorem awaits_of_leavesOut {peer : Peer} (h : LeavesOut rest moves moves')
    (hbuffer : buffer ++ rest = Bytes.blank (k + j))
    (hroom : HasRoom s.maxHeaderSize k (Bytes.blank j ++ incoming moves')) :
    awaits s deadline buffer { peer with script := moves } =
      awaits s deadline (Bytes.blank j) { peer with script := moves' } := by
  rw [awaits, awaits]
  dsimp only
  rw [settles_of_leavesOut h hbuffer hroom]
  cases hsettles : settles s.maxHeaderSize peer.now (Bytes.blank j) moves' with
  | none => rfl
  | some settled =>
    obtain ⟨time, settlement⟩ := settled
    simp only [settledBehind, Option.map_some]
    rw [sends_behind hsettles hroom]

/-- The deadline does not matter if the head is settled in time. -/
theorem awaits_deadline {peer : Peer} {deadline' : Nat}
    (hsettles : settles s.maxHeaderSize peer.now buffer peer.script = some (time, settlement))
    (hle : time ≤ deadline) (hle' : time ≤ deadline') :
    awaits s deadline buffer peer = awaits s deadline' buffer peer := by
  rw [awaits, awaits, hsettles]
  dsimp only
  rw [if_pos hle, if_pos hle']

theorem LeavesOut.notMem_stopServer (h : LeavesOut rest moves moves')
    (hmoves : .stopServer ∉ moves) :
    .stopServer ∉ moves' := by
  induction h with
  | same => exact hmoves
  | last rest octets moves =>
    exact fun hmem => hmoves (List.mem_cons_of_mem _ ((List.mem_cons.1 hmem).resolve_left nofun))
  | all _ ih | wait _ ih =>
    refine fun hmem => ih (fun hmem' => hmoves (List.mem_cons_of_mem _ hmem')) ?_
    exact (List.mem_cons.1 hmem).resolve_left nofun

/-! ### Runs -/

/-- What follows between two requests is there in time: if something is awaited for a request, it
arrives by the deadline, and the head that begins with it is settled by the time at which it would
be due had it begun now. -/
def InTime (s : Settings) (now : Nat) (moves : List Move) : Phase → Prop
  | .idle first deadline => ∃ begins, Peer.arrivalFrom now moves = some begins ∧ begins ≤ deadline ∧
      (first = true ∨ begins = now ∨ ∃ time settlement,
        settles s.maxHeaderSize now [] moves = some (time, settlement) ∧
          time ≤ now + s.headersTimeout)
  | _ => True

/-- Nothing follows by the time up to which a request is awaited, nor by the time at which a head
would be due that begins now. -/
def Silent (s : Settings) (now : Nat) (moves : List Move) : Phase → Prop
  | .idle first deadline => ∀ begins, Peer.arrivalFrom now moves = some begins →
      deadline < begins ∧ (first = false → now + s.headersTimeout < begins)
  | _ => False

section Runs

variable {p peer : Peer} {trace : Trace} {phase : Phase} {r : Reading} {pre : List Move}
  {before octets octets' : Bytes}

/-- A head of which something is there between two requests is not due before now. -/
theorem now_le_of_due (hnow : ∀ deadline, (patience phase).deadline = some deadline →
    now ≤ deadline)
    (hdue : phase.due? s now = some deadline) : now ≤ deadline := by
  cases phase with
  | idle first deadline' =>
    cases first with
    | true => exact hnow _ hdue
    | false => exact Option.some.inj hdue ▸ Nat.le_add_right _ _
  | head deadline' buffer => exact hnow _ hdue
  | body | ended => cases hdue

/-- Octets that arrive between two requests are those of a head that is awaited. -/
theorem sends_arrives_of_begun (hpeer : peer.Unstopped) (hbegun : phase.begun? = some buffer)
    (hdue : phase.due? s peer.now = some deadline) (hnow : peer.now ≤ deadline)
    (hoctets : octets ≠ []) :
    (arrives s phase peer octets).trace.sends =
      awaits s deadline buffer { peer with script := .send octets :: peer.script } := by
  rw [arrives_of_ne_nil hoctets, step_of_begun? hbegun hdue]
  exact sends_serve hpeer hnow fun hmore => sends_runFrom_head hpeer hnow hmore

theorem awaits_send_nil (hparse : Head.parse s.maxHeaderSize buffer = .error .incomplete) :
    awaits s deadline buffer { peer with script := .send [] :: peer.script } =
      awaits s deadline buffer peer := by
  have hnil : Head.parse s.maxHeaderSize (buffer ++ []) = .error .incomplete := by
    rwa [List.append_nil]
  rw [awaits, awaits, settles_of_incomplete hnil, List.append_nil]

/-- If what follows is there in time, then a head is awaited as if it had begun now. -/
theorem sends_arrives_of_inTime (hpeer : peer.Unstopped)
    (hnow : ∀ deadline, (patience phase).deadline = some deadline → peer.now ≤ deadline)
    (hbegun : phase.begun? = some buffer) (hdue : phase.due? s peer.now = some deadline)
    (hparse : Head.parse s.maxHeaderSize buffer = .error .incomplete)
    (h : InTime s peer.now (.send octets :: peer.script) phase) :
    (arrives s phase peer octets).trace.sends =
      awaits s deadline buffer { peer with script := .send octets :: peer.script } := by
  by_cases hoctets : octets = []
  · subst hoctets
    rw [arrives_nil, awaits_send_nil hparse]
    cases phase with
    | head deadline' buffer' =>
      cases hbegun
      cases hdue
      exact sends_runFrom_head hpeer (hnow _ rfl) hparse
    | idle first deadline' =>
      cases hbegun
      cases hdue
      obtain ⟨begins, harrival, hle, hcases⟩ := h
      have hbegins := Peer.le_of_arrivalFrom harrival
      rw [sends_runFrom_idle hpeer harrival hle]
      cases first with
      | true => rfl
      | false =>
        obtain hfirst | rfl | ⟨time, settlement, hsettles, htime⟩ := hcases
        · cases hfirst
        · rfl
        · rw [settles_of_incomplete hparse] at hsettles
          exact awaits_deadline hsettles
            (Nat.le_trans htime (Nat.add_le_add_right hbegins _)) htime
    | body | ended => cases hbegun
  · exact sends_arrives_of_begun hpeer hbegun hdue (now_le_of_due hnow hdue) hoctets

/-- If nothing follows, then an idle connection sends nothing, and one that awaits a head reports a
timeout. -/
theorem sends_arrives_of_silent (hpeer : peer.Unstopped)
    (hnow : ∀ deadline, (patience phase).deadline = some deadline → peer.now ≤ deadline)
    (hbegun : phase.begun? = some buffer) (hdue : phase.due? s peer.now = some deadline)
    (h : Silent s peer.now (.send octets :: peer.script) phase) :
    (arrives s phase peer octets).trace.sends = [] ∧
      awaits s deadline buffer { peer with script := .send octets :: peer.script } =
        [timeoutResponse] := by
  cases phase with
  | idle first deadline' =>
    cases hbegun
    cases hdue
    constructor
    · by_cases hoctets : octets = []
      · subst hoctets
        rw [arrives_nil]
        exact sends_runFrom_idle_of_silent hpeer (hnow _ rfl) fun time harrival =>
          (h time harrival).1
      · have harrival : Peer.arrivalFrom peer.now (.send octets :: peer.script) = some peer.now :=
          if_neg (mt List.isEmpty_iff.1 hoctets)
        exact absurd (hnow _ rfl) (Nat.not_le.2 (h _ harrival).1)
    · refine awaits_of_lt fun time settlement hsettles => ?_
      obtain ⟨begins, harrival, hle⟩ := exists_arrival_of_settles (Head.parse_nil _) hsettles
      obtain ⟨hidle, hhead⟩ := h begins harrival
      refine Nat.lt_of_lt_of_le ?_ hle
      split
      case isTrue => exact hidle
      case isFalse hfirst => exact hhead (Bool.eq_false_iff.2 hfirst)
  | head | body | ended => cases h

end Runs

/-- Between two requests, a wait has not passed its deadline. -/
theorem now_le_takes {p peer : Peer} {trace : Trace} {phase : Phase} {r : Reading}
    {octets before : Bytes}
    (hreach : Reaches s p trace phase peer) (hp : p.Unstopped)
    (hr : peer.read (patience phase) = r) (hresult : r.result = .ok (.octets octets))
    (hphase : ∀ ending, phase ≠ .ended ending) :
    ∀ deadline, (patience (takes s r.peer.now r.peer.isStopping phase before).phase).deadline =
      some deadline → r.peer.now ≤ deadline := by
  by_cases hbefore : before = []
  · subst hbefore
    intro deadline hdeadline
    subst hr
    exact (hreach.unstopped hp).now_le_read hdeadline (hreach.now_le hp deadline hdeadline) hresult
  · have hinput : input? r.result = some (.octets octets) := by rw [hresult]; rfl
    rw [takes_of_ne_nil hbefore]
    exact now_le_step (hreach.unstopped hp) (hreach.now_le hp) hphase hr hinput hbefore rfl

/-- **Blank lines between two requests** make no difference to what is sent, however they are cut
into reads, if what follows them is there in time. If nothing follows them, a timeout is reported,
where without them nothing would be sent.

The first run reads the first octets of the blank lines between two requests, where some blank lines
may have been read before; the second run is of the peer that leaves the blank lines out. -/
theorem sends_run_of_leavesOut {p peer : Peer} {trace : Trace} {phase : Phase} {r : Reading}
    {pre : List Move} {before octets octets' : Bytes} (hp : p.Unstopped)
    (hreach : Reaches s p trace phase peer) (hr : peer.read (patience phase) = r)
    (hresult : r.result = .ok (.octets (before ++ octets)))
    (hscript : p.script = pre ++ .send (before ++ octets) :: r.peer.script) (hoctets : octets ≠ [])
    (hbegun : (takes s r.peer.now r.peer.isStopping phase before).phase.begun? =
      some (Bytes.blank j))
    (hleaves : LeavesOut (Bytes.blank k) (.send octets :: r.peer.script) (.send octets' :: moves))
    (hroom : HasRoom s.maxHeaderSize k (Bytes.blank j ++ incoming (.send octets' :: moves))) :
    (InTime s r.peer.now (.send octets' :: moves)
        (takes s r.peer.now r.peer.isStopping phase before).phase →
      ∀ failure?, (run s failure? p).trace.sends =
        (run s failure? { p with script := pre ++ .send (before ++ octets') ::
          moves }).trace.sends) ∧
    (Silent s r.peer.now (.send octets' :: moves)
        (takes s r.peer.now r.peer.isStopping phase before).phase →
      (run s none p).trace.sends =
        (run s none { p with script := pre ++ .send (before ++ octets') :: moves }).trace.sends ++
          [timeoutResponse]) := by
  have hunstopped : r.peer.Unstopped := hr ▸ (hreach.unstopped hp).read _
  have hnow := @now_le_takes s p peer trace phase r _ before hreach hp hr hresult
    (ne_ended_of_takes hbegun)
  obtain ⟨deadline, hdue⟩ := @exists_due?_of_begun? s r.peer.now _ _ hbegun
  have hparse := hreach.parse_begun_takes hbegun
  have hunstopped' : Peer.Unstopped { r.peer with script := moves } := by
    refine ⟨hunstopped.stopAt_eq, fun hmem => ?_⟩
    refine hleaves.notMem_stopServer (fun hmem' => ?_) (List.mem_cons_of_mem _ hmem)
    exact hunstopped.notMem ((List.mem_cons.1 hmem').resolve_left nofun)
  -- both runs send the same up to the end of the request before
  have hsends := sends_run_of_change hreach hr hresult hscript hbegun
  have hself : { p with script := pre ++ .send (before ++ octets) :: r.peer.script } = p := by
    rw [← hscript]
  have hblank : Bytes.blank j ++ Bytes.blank k = Bytes.blank (k + j) := by
    rw [← Bytes.blank_add, Nat.add_comm]
  have hwith := sends_arrives_of_begun hunstopped hbegun hdue (now_le_of_due hnow hdue) hoctets
  rw [awaits_of_leavesOut hleaves hblank hroom] at hwith
  have hrun := hsends octets r.peer.script
  rw [hself, hwith] at hrun
  constructor
  · intro h failure?
    refine sends_run_congr ?_ failure?
    rw [hrun, hsends, sends_arrives_of_inTime hunstopped' hnow hbegun hdue hparse h]
  · intro h
    obtain ⟨hnothing, htimeout⟩ := sends_arrives_of_silent hunstopped' hnow hbegun hdue h
    rw [hrun, hsends, hnothing, List.append_nil, ← List.append_assoc]
    exact congrArg _ htimeout

/-- A GET request. -/
def plainGet : Bytes := Utf8.encode "GET / HTTP/1.1\r\n\r\n"

/-- The response to it. -/
def plainGreeting : Bytes :=
  Utf8.encode ("HTTP/1.1 200 OK\r\nServer: keepalive-echo\r\nContent-Length: 16\r\n" ++
    "Connection: keep-alive\r\nKeep-Alive: timeout=10\r\n\r\nhello undefined\n")

/-- A peer that sends a request with something behind it, and then makes further moves. -/
def afterGet (octets : Bytes) (moves : List Move) : Peer where
  script := .send (plainGet ++ octets) :: moves

/-- **A blank line and then silence** is reported as a timeout; silence alone is not. -/
theorem sends_run_blank_hang :
    (run {} none { script := [.send plainGet, .send Bytes.crlf, .hang] }).trace.sends =
        [plainGreeting, timeoutResponse] ∧
      (run {} none { script := [.send plainGet, .hang] }).trace.sends = [plainGreeting] := by
  decide +kernel

/-- A blank line that is cut in two makes no difference if a request follows in time; a blank line
that nothing follows does. -/
theorem sends_run_of_leavesOut_cut :
    (∀ failure?, (run {} failure?
        (afterGet [Bytes.cr] [.wait 5, .send (Bytes.lf :: plainGet)])).trace.sends =
      (run {} failure? (afterGet [] [.wait 5, .send plainGet])).trace.sends) ∧
    (run {} none (afterGet Bytes.crlf [.hang])).trace.sends =
      (run {} none (afterGet [] [.hang])).trace.sends ++ [timeoutResponse] := by
  have hbegun : (takes {} 0 false (Connection.start {} 0) plainGet).phase.begun? =
      some (Bytes.blank 0) := by decide +kernel
  have hnext : (takes {} 0 false (Connection.start {} 0) plainGet).phase = .idle false 10000 := by
    decide +kernel
  have hblank : Bytes.blank 1 = [Bytes.cr] ++ [Bytes.lf] := by decide
  have hread : ∀ octets moves, (afterGet octets moves).read (patience (Connection.start {} 0)) =
      { result := .ok (.octets (plainGet ++ octets)), trace := [⟨0, .received 0⟩],
        peer := { script := moves, index := 1 } } := fun _ _ => rfl
  have hscript : ∀ octets moves, (afterGet octets moves).script =
      [] ++ .send (plainGet ++ octets) :: moves := fun _ _ => rfl
  constructor
  · have hsize : Head.size? (Bytes.blank 0 ++ incoming [.send [], .wait 5, .send plainGet]) =
        some 14 := by decide +kernel
    have hroom : HasRoom 16384 1 (Bytes.blank 0 ++
        incoming [.send [], .wait 5, .send plainGet]) := by
      rw [HasRoom, hsize]
      decide
    have hleaves : LeavesOut (Bytes.blank 1) [.send [Bytes.cr], .wait 5,
        .send (Bytes.lf :: plainGet)]
        [.send [], .wait 5, .send plainGet] := by
      rw [hblank]
      exact .all (.wait (.last [Bytes.lf] plainGet []))
    have hsettles : settles 16384 0 [] [.send [], .wait 5, .send plainGet] =
        some (5, .verdict plainGet []) := by decide +kernel
    have hintime : InTime {} 0 [.send [], .wait 5, .send plainGet]
        (takes {} 0 false (Connection.start {} 0) plainGet).phase := by
      rw [hnext]
      exact ⟨5, rfl, by decide, .inr (.inr ⟨5, _, hsettles, by decide⟩)⟩
    exact (sends_run_of_leavesOut ⟨rfl, by decide +kernel⟩ .start (hread _ _) rfl (hscript _ _)
      (List.cons_ne_nil _ _) hbegun hleaves hroom).1 hintime
  · have hsize : Head.size? (Bytes.blank 0 ++ incoming [.send [], .hang]) = none := by
        decide +kernel
    have hroom : HasRoom 16384 1 (Bytes.blank 0 ++ incoming [.send [], .hang]) := by
      rw [HasRoom, hsize]
      decide
    have hleaves : LeavesOut (Bytes.blank 1) [.send Bytes.crlf, .hang] [.send [], .hang] :=
      .last (Bytes.blank 1) [] [.hang]
    have hsilent : Silent {} 0 [.send [], .hang]
        (takes {} 0 false (Connection.start {} 0) plainGet).phase := by
      rw [hnext]
      exact fun begins harrival => nomatch harrival
    exact (sends_run_of_leavesOut ⟨rfl, by decide +kernel⟩ .start (hread _ _) rfl (hscript _ _)
      (List.cons_ne_nil _ _) hbegun hleaves hroom).2 hsilent

end HttpEcho.Session
