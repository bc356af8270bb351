import HttpEcho.Proofs.Session.Changes
import HttpEcho.Proofs.Session.Deadlines

/-!
# When a head is settled

When a head is settled that is waited for, and with which octets, follows from the moves of the
peer, as long as its deadline does not come first (`Session.settles`). That alone decides what is
sent from then on (`Session.sends_runFrom_head`). If nothing of it is there yet and something
arrives while the connection is idle, it is no different (`Session.sends_runFrom_idle`).
-/

namespace HttpEcho.Session

open Connection

/-- How a head is settled that is waited for. -/
inductive Settlement where
  /-- The octets that are there begin with a head or are refused. Some moves of the peer are
  left. -/
  | verdict (buffer : Bytes) (left : List Move)
  /-- No more of it can arrive. -/
  | cutShort
  deriving DecidableEq, Repr

/-- When and how a head is settled of which some octets are there, by the moves of a list that begin
at a time, if there is no deadline. -/
def settles (limit now : Nat) (buffer : Bytes) : List Move → Option (Nat × Settlement)
  | [] | .close :: _ | .fail _ :: _ => some (now, .cutShort)
  | .send octets :: rest =>
    match Head.parse limit (buffer ++ octets) with
    | .error .incomplete => settles limit now (buffer ++ octets) rest
    | _ => some (now, .verdict (buffer ++ octets) rest)
  | .wait ms :: rest => settles limit (now + ms) buffer rest
  | .hang :: _ => none
  | .stopServer :: rest => settles limit (now + 1) buffer rest

/-- What is sent once a head is settled. The deadline of a head that is there does not matter. -/
def Settlement.sends (s : Settings) (time : Nat) (stopped : Bool) : Settlement → List Bytes
  | .verdict buffer left => (fromTurn s (serve s time stopped time buffer)
      { script := left, now := time, stopped }).trace.sends
  | .cutShort => []

/-- What is sent if a head is awaited up to a deadline: what follows once it is settled, or the
report of a timeout. -/
def awaits (s : Settings) (deadline : Nat) (buffer : Bytes) (peer : Peer) : List Bytes :=
  match settles s.maxHeaderSize peer.now buffer peer.script with
  | some (time, settlement) =>
    if time ≤ deadline then settlement.sends s time peer.stopped else [timeoutResponse]
  | none => [timeoutResponse]

variable {s : Settings} {peer : Peer} {limit now time deadline : Nat} {buffer octets : Bytes}
  {moves : List Move} {settlement : Settlement}

/-! ### When a head is settled -/

theorem settles_of_incomplete {left : List Move}
    (h : Head.parse limit (buffer ++ octets) = .error .incomplete) :
    settles limit now buffer (.send octets :: left) =
      settles limit now (buffer ++ octets) left := by
  rw [settles, h]

theorem settles_of_not_incomplete {left : List Move}
    (h : Head.parse limit (buffer ++ octets) ≠ .error .incomplete) :
    settles limit now buffer (.send octets :: left) =
      some (now, .verdict (buffer ++ octets) left) := by
  rw [settles]
  split
  case h_1 hincomplete => exact absurd hincomplete h
  case h_2 => rfl

/-- A head is not settled before it is waited for. -/
theorem le_of_settles (h : settles limit now buffer moves = some (time, settlement)) :
    now ≤ time := by
  induction moves generalizing now buffer with
  | nil => exact Nat.le_of_eq (Prod.mk.inj (Option.some.inj h)).1
  | cons move moves ih =>
    cases move with
    | send octets =>
      by_cases hparse : Head.parse limit (buffer ++ octets) = .error .incomplete
      · rw [settles_of_incomplete hparse] at h
        exact ih h
      · rw [settles_of_not_incomplete hparse] at h
        exact Nat.le_of_eq (Prod.mk.inj (Option.some.inj h)).1
    | wait ms => exact Nat.le_trans (Nat.le_add_right _ _) (ih h)
    | close | fail => exact Nat.le_of_eq (Prod.mk.inj (Option.some.inj h)).1
    | hang => cases h
    | stopServer => exact Nat.le_trans (Nat.le_succ _) (ih h)

/-- No head is settled before something arrives. -/
theorem exists_arrival_of_settles (hparse : Head.parse limit buffer = .error .incomplete)
    (h : settles limit now buffer moves = some (time, settlement)) :
    ∃ arrival, Peer.arrivalFrom now moves = some arrival ∧ arrival ≤ time := by
  induction moves generalizing now with
  | nil => exact ⟨now, rfl, le_of_settles h⟩
  | cons move moves ih =>
    cases move with
    | send octets =>
      rw [Peer.arrivalFrom]
      split
      case isTrue hempty =>
        rw [List.isEmpty_iff.1 hempty, settles_of_incomplete
          ((List.append_nil buffer).symm ▸ hparse), List.append_nil] at h
        exact ih h
      case isFalse => exact ⟨now, rfl, le_of_settles h⟩
    | wait ms => exact ih h
    | close | fail => exact ⟨now, rfl, le_of_settles h⟩
    | hang => cases h
    | stopServer => exact ih h

/-- A head that is settled after its deadline, or not at all, is reported as late. -/
theorem awaits_of_lt (h : ∀ time settlement,
    settles s.maxHeaderSize peer.now buffer peer.script = some (time, settlement) →
      deadline < time) :
    awaits s deadline buffer peer = [timeoutResponse] := by
  unfold awaits
  split
  case h_1 time settlement hsettles => exact if_neg (Nat.not_le.2 (h time settlement hsettles))
  case h_2 => rfl

/-! ### What is sent -/

/-- The deadline of a head does not matter once it is complete. -/
theorem serve_deadline (hparse : Head.parse s.maxHeaderSize buffer ≠ .error .incomplete)
    (stopping : Bool) (deadline deadline' : Nat) :
    serve s now stopping deadline buffer = serve s now stopping deadline' buffer := by
  cases h : Head.parse s.maxHeaderSize buffer with
  | error error =>
    have hne : error ≠ .incomplete := fun heq => hparse (heq ▸ h)
    rw [serve_of_error h hne, serve_of_error h hne]
  | ok parsed => rw [serve_of_ok h, serve_of_ok h]

theorem sends_fromTurn_of_sameMoves {peer' : Peer} (h : peer.SameMoves peer') (turn : Turn) :
    (fromTurn s turn peer).trace.sends = (fromTurn s turn peer').trace.sends := by
  rw [fromTurn, fromTurn, sends_after, sends_after, sends_shown, sends_shown,
    sends_runFrom_of_sameMoves h]

/-- Octets of a head that arrive settle it, or are kept until it is settled. -/
theorem sends_serve (hp : peer.Unstopped) (hnow : peer.now ≤ deadline)
    (hhead : Head.parse s.maxHeaderSize (buffer ++ octets) = .error .incomplete →
      (runFrom s none (.head deadline (buffer ++ octets)) 0 peer).trace.sends =
        awaits s deadline (buffer ++ octets) peer) :
    (fromTurn s (serve s peer.now peer.isStopping deadline (buffer ++ octets)) peer).trace.sends =
      awaits s deadline buffer { peer with script := .send octets :: peer.script } := by
  by_cases hparse : Head.parse s.maxHeaderSize (buffer ++ octets) = .error .incomplete
  · rw [serve_of_incomplete hparse, fromTurn, sends_after]
    refine (hhead hparse).trans ?_
    rw [awaits, awaits, settles_of_incomplete hparse]
  · have hsame : peer.SameMoves
        { script := peer.script, now := peer.now, stopped := peer.stopped } :=
      ⟨rfl, rfl, rfl, hp.stopAt_eq⟩
    have hstopping : peer.isStopping = peer.stopped := by
      rw [Peer.isStopping, hp.stopAt_eq]
      exact Bool.or_false _
    rw [awaits, settles_of_not_incomplete hparse]
    dsimp only
    rw [if_pos hnow, Settlement.sends, serve_deadline hparse _ deadline peer.now, hstopping,
      sends_fromTurn_of_sameMoves hsame]

/-- What a read brings of a head that is not settled yet: octets, after which it is settled as
before, or the end, which settles it. -/
def Brings (limit : Nat) (buffer : Bytes) (peer : Peer) (r : Reading) : Prop :=
  r.peer.stopped = peer.stopped ∧
    ((∃ octets, octets ≠ [] ∧ r.result = .ok (.octets octets) ∧
        settles limit peer.now buffer peer.script =
          settles limit r.peer.now buffer (.send octets :: r.peer.script)) ∨
      ((r.result = .ok .endOfInput ∨ ∃ kind, r.result = .ok (.failure kind)) ∧
        settles limit peer.now buffer peer.script = some (r.peer.now, .cutShort)))

theorem brings_readFrom {patience : Patience}
    (hparse : Head.parse limit buffer = .error .incomplete)
    (hdeadline : patience.deadline = some deadline) (hstopAt : peer.stopAt = none)
    (hscript : .stopServer ∉ moves) (harrival : Peer.arrivalFrom peer.now moves = some time)
    (hle : time ≤ deadline) :
    Brings limit buffer { peer with script := moves } (Peer.readFrom patience moves peer) := by
  induction moves generalizing peer with
  | nil => exact ⟨rfl, .inr ⟨.inl rfl, rfl⟩⟩
  | cons move moves ih =>
    have hmoves : .stopServer ∉ moves := fun hmem => hscript (List.mem_cons_of_mem _ hmem)
    cases move with
    | send octets =>
      rw [Peer.readFrom]
      rw [Peer.arrivalFrom] at harrival
      split
      case isTrue hempty =>
        rw [if_pos hempty] at harrival
        -- a move without octets settles nothing
        have hpass : settles limit peer.now buffer (.send octets :: moves) =
            settles limit peer.now buffer moves := by
          rw [List.isEmpty_iff.1 hempty, settles_of_incomplete
            ((List.append_nil buffer).symm ▸ hparse), List.append_nil]
        obtain ⟨hstopped, hbrings⟩ := @ih (peer.advance moves peer.now) hstopAt hmoves harrival
        refine ⟨hstopped, ?_⟩
        dsimp only at hbrings ⊢
        rw [hpass]
        exact hbrings
      case isFalse hempty =>
        exact ⟨rfl, .inl ⟨octets, mt List.isEmpty_iff.2 hempty, rfl, rfl⟩⟩
    | wait ms =>
      have hwait : peer.now + ms ≤ deadline := Nat.le_trans (Peer.le_of_arrivalFrom harrival) hle
      have hnone : peer.interruption? patience (some (peer.now + ms)) = none := by
        rw [Peer.interruption?_of_deadline hstopAt hdeadline (by omega), if_neg]
        rw [Option.all_some, decide_eq_true_eq]
        omega
      rw [Peer.readFrom, hnone]
      exact @ih (peer.advance moves (peer.now + ms)) hstopAt hmoves harrival
    | close => exact ⟨rfl, .inr ⟨.inl rfl, rfl⟩⟩
    | fail kind => exact ⟨rfl, .inr ⟨.inr ⟨kind, rfl⟩, rfl⟩⟩
    | hang => cases harrival
    | stopServer => exact absurd List.mem_cons_self hscript

/-- **A read that something arrives for** leaves the head to be settled as before, or settles it. -/
theorem brings_read {patience : Patience} (hp : peer.Unstopped)
    (hparse : Head.parse limit buffer = .error .incomplete)
    (hdeadline : patience.deadline = some deadline) (harrival : peer.arrival? = some time)
    (hle : time ≤ deadline) : Brings limit buffer peer (peer.read patience) :=
  brings_readFrom hparse hdeadline hp.stopAt_eq hp.notMem harrival hle

/-- What is awaited before a read is awaited after it. -/
theorem awaits_of_brings {r : Reading} (h : Brings s.maxHeaderSize buffer peer r)
    (hnow : r.peer.now ≤ deadline) :
    (∃ octets, octets ≠ [] ∧ r.result = .ok (.octets octets) ∧ awaits s deadline buffer peer =
        awaits s deadline buffer { r.peer with script := .send octets :: r.peer.script }) ∨
      (r.result = .ok .endOfInput ∨ ∃ kind, r.result = .ok (.failure kind)) ∧
        awaits s deadline buffer peer = [] := by
  obtain ⟨hstopped, ⟨octets, hne, hresult, hsettles⟩ | ⟨hresult, hsettles⟩⟩ := h
  · refine .inl ⟨octets, hne, hresult, ?_⟩
    rw [awaits, awaits, hsettles, hstopped]
  · refine .inr ⟨hresult, ?_⟩
    rw [awaits, hsettles]
    exact if_pos hnow

/-- Nothing is sent if no more of a head arrives. -/
theorem sends_afterRead_of_end {phase : Phase} {r : Reading} (hbegun : phase.begun?.isSome)
    (h : r.result = .ok .endOfInput ∨ ∃ kind, r.result = .ok (.failure kind)) :
    (afterRead s phase r).trace.sends = [] := by
  obtain h | ⟨kind, h⟩ := h
  all_goals
    rw [afterRead, h]
    cases phase with
    | idle | head => rfl
    | body | ended => cases hbegun

/-- **What is sent from a wait for a head** follows from when and how the head is settled. -/
theorem sends_runFrom_head (hp : peer.Unstopped) (hnow : peer.now ≤ deadline)
    (hparse : Head.parse s.maxHeaderSize buffer = .error .incomplete) :
    (runFrom s none (.head deadline buffer) 0 peer).trace.sends =
      awaits s deadline buffer peer := by
  induction hn : peer.script.length using Nat.strongRecOn generalizing peer buffer with
  | ind n ih =>
    have hphase : ∀ ending, Phase.head deadline buffer ≠ .ended ending := fun _ h => nomatch h
    rw [sends_runFrom_eq hphase rfl]
    by_cases hsilent : ∀ time, peer.arrival? = some time → deadline < time
    · have hread : (peer.read (patience (.head deadline buffer))).Silent deadline :=
        hp.silent_read (deadline_patience_head deadline buffer) hnow hsilent
      rw [afterRead, hread.result_eq, awaits_of_lt]
      · rfl
      · intro time settlement hsettles
        obtain ⟨arrival, harrival, hle⟩ := exists_arrival_of_settles hparse hsettles
        exact Nat.lt_of_lt_of_le (hsilent arrival harrival) hle
    · obtain ⟨time, htime⟩ := Classical.not_forall.1 hsilent
      obtain ⟨harrival, hlt⟩ := Classical.not_imp.1 htime
      have hle := Nat.le_of_not_lt hlt
      have hdeadline := deadline_patience_head deadline buffer
      obtain ⟨arrival, hdelivers⟩ := hp.delivers_read hdeadline harrival hle
      have hnow' : (peer.read (patience (.head deadline buffer))).peer.now ≤ deadline :=
        hdelivers.now_eq ▸ hle
      obtain ⟨octets, hne, hresult, hawaits⟩ | ⟨hresult, hawaits⟩ :=
        awaits_of_brings (brings_read hp hparse hdeadline harrival hle) hnow'
      · have hlt' := hn ▸ Peer.length_read_script_lt hresult
        rw [hawaits, afterRead, hresult]
        change (arrives s _ _ octets).trace.sends = _
        rw [arrives_of_ne_nil hne]
        exact sends_serve (hp.read _) hnow' fun hmore => ih _ hlt' (hp.read _) hnow' hmore rfl
      · exact hawaits ▸ sends_afterRead_of_end rfl hresult

/-- **What is sent from an idle wait** is what is sent from a wait for a head of which nothing is
there, if something arrives in time. -/
theorem sends_runFrom_idle {first : Bool} (hp : peer.Unstopped)
    (harrival : peer.arrival? = some time)
    (hle : time ≤ deadline) :
    (runFrom s none (.idle first deadline) 0 peer).trace.sends =
      awaits s (if first then deadline else time + s.headersTimeout) [] peer := by
  have hphase : ∀ ending, Phase.idle first deadline ≠ .ended ending := fun _ h => nomatch h
  have hdeadline := deadline_patience_idle first deadline
  obtain ⟨arrival, hdelivers⟩ := hp.delivers_read hdeadline harrival hle
  obtain rfl := hdelivers.now_eq
  have hbrings := brings_read hp (Head.parse_nil s.maxHeaderSize) hdeadline harrival hle
  have hpeer := hp.read (patience (.idle first deadline))
  rw [sends_runFrom_eq hphase rfl]
  generalize peer.read (patience (.idle first deadline)) = r at *
  have hdue : r.peer.now ≤ if first then deadline else r.peer.now + s.headersTimeout := by
    split
    · exact hle
    · exact Nat.le_add_right _ _
  obtain ⟨octets, hne, hresult, hawaits⟩ | ⟨hresult, hawaits⟩ := awaits_of_brings hbrings hdue
  · rw [afterRead, hresult, hawaits]
    change (arrives s _ r.peer octets).trace.sends = _
    rw [arrives_of_ne_nil hne]
    exact @sends_serve s r.peer _ [] octets hpeer hdue fun hmore =>
      sends_runFrom_head hpeer hdue hmore
  · exact hawaits ▸ sends_afterRead_of_end rfl hresult

/-- Nothing is sent from an idle wait that nothing arrives for in time. -/
theorem sends_runFrom_idle_of_silent {first : Bool} (hp : peer.Unstopped)
    (hnow : peer.now ≤ deadline)
    (hsilent : ∀ time, peer.arrival? = some time → deadline < time) :
    (runFrom s none (.idle first deadline) 0 peer).trace.sends = [] := by
  have hphase : ∀ ending, Phase.idle first deadline ≠ .ended ending := fun _ h => nomatch h
  have hread : (peer.read (patience (.idle first deadline))).Silent deadline :=
    hp.silent_read (deadline_patience_idle first deadline) hnow hsilent
  rw [sends_runFrom_eq hphase rfl, afterRead, hread.result_eq]
  rfl

end HttpEcho.Session
