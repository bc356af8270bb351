import HttpEcho.Proofs.Connection.Joins
import HttpEcho.Proofs.Session.Bounds
import HttpEcho.Proofs.Session.Pipeline

/-!
# Runs of peers that differ in one move

What a read does with the first moves of a script does not depend on those behind them
(`Peer.readFrom_append_cases`), and so a run comes to the same waits whatever the peer does later
(`Session.Reaches.of_append`). If other octets arrive at one of these waits, the run goes on with
what the connection does with them, from the same phase and at the same time
(`Session.run_of_change`). A move without octets makes no difference to what is sent
(`Session.sends_run_of_send_nil`).
-/

namespace HttpEcho

open Connection

namespace Peer

variable {patience : Patience} {p : Peer} {octets : Bytes} {pre rest tail : List Move}

/-! ### Reads -/

/-- A read depends on the moves that it is given, not on those that the peer holds. -/
theorem readFrom_advance (patience : Patience) (moves : List Move) (p : Peer) (script : List Move)
    (now : Nat) :
    readFrom patience moves (p.advance script now) = readFrom patience moves (p.advance [] now) :=
  readFrom_script patience moves (p.advance [] now) script

/-- A read ends with a move that sends octets, passes over it, or brings no octets, whatever comes
after the move. -/
theorem readFrom_cons_cases (patience : Patience) (move : Move) (p : Peer) :
    (∃ octets, octets ≠ [] ∧ move = .send octets ∧ ∀ rest, readFrom patience (move :: rest) p =
      ⟨.ok (.octets octets), .stamp p.now [.received p.index], p.advance rest p.now⟩) ∨
    (∃ p' trace, ∀ rest,
      readFrom patience (move :: rest) p = (readFrom patience rest p').after trace) ∨
    ∀ rest octets, (readFrom patience (move :: rest) p).result ≠ .ok (.octets octets) := by
  cases move with
  | send octets =>
    by_cases hempty : octets.isEmpty
    · refine .inr (.inl ⟨p.advance [] p.now, .stamp p.now [.received p.index], fun rest => ?_⟩)
      rw [readFrom, if_pos hempty, readFrom_advance]
    · refine .inl ⟨octets, mt List.isEmpty_iff.2 hempty, rfl, fun rest => ?_⟩
      rw [readFrom, if_neg hempty]
  | wait ms =>
    cases hinterrupted : p.interruption? patience (some (p.now + ms)) with
    | none =>
      refine .inr (.inl ⟨p.advance [] (p.now + ms), [], fun rest => ?_⟩)
      rw [readFrom, hinterrupted]
      exact readFrom_advance patience rest p rest (p.now + ms)
    | some interruption =>
      refine .inr (.inr fun rest octets h => ?_)
      rw [readFrom, hinterrupted] at h
      cases h
  | close | fail =>
    refine .inr (.inr fun rest octets h => ?_)
    cases h
  | hang =>
    refine .inr (.inr fun rest octets h => ?_)
    rw [readFrom] at h
    split at h <;> cases h
  | stopServer =>
    by_cases hidle : patience.idle
    · refine .inr (.inr fun rest octets h => ?_)
      rw [readFrom, if_pos hidle] at h
      cases h
    cases hinterrupted : ({ p with stopped := true } : Peer).interruption? patience
      (some (p.now + 1))
      with
    | none =>
      refine .inr (.inl ⟨({ p with stopped := true } : Peer).advance [] (p.now + 1),
        .stamp p.now [.stopAsked], fun rest => ?_⟩)
      rw [readFrom, if_neg hidle, hinterrupted]
      dsimp only
      rw [readFrom_advance]
    | some interruption =>
      refine .inr (.inr fun rest octets h => ?_)
      rw [readFrom, if_neg hidle, hinterrupted] at h
      cases h

/-- **What a read does with the first moves of a script** does not depend on the others: it ends
with one that sends octets, passes over all of them, or brings no octets. -/
theorem readFrom_append_cases (patience : Patience) (moves : List Move) (p : Peer) :
    (∃ (before : List Move) (octets : Bytes) (after : List Move) (p' : Peer) (trace : Trace),
      moves = before ++ .send octets :: after ∧ octets ≠ [] ∧ ∀ rest,
        readFrom patience (moves ++ rest) p =
          ⟨.ok (.octets octets), trace, { p' with script := after ++ rest }⟩) ∨
    (∃ p' trace, ∀ rest,
      readFrom patience (moves ++ rest) p = (readFrom patience rest p').after trace) ∨
    ∀ rest octets, (readFrom patience (moves ++ rest) p).result ≠ .ok (.octets octets) := by
  induction moves generalizing p with
  | nil => exact .inr (.inl ⟨p, [], fun rest => rfl⟩)
  | cons move moves ih =>
    obtain ⟨octets, hne, rfl, hread⟩ | ⟨p', trace, hread⟩ | hread :=
      readFrom_cons_cases patience move p
    · exact .inl ⟨[], octets, moves, p.advance [] p.now, _, rfl, hne, fun rest => hread _⟩
    · obtain ⟨before, octets, after, p'', trace', rfl, hne, hmore⟩ | ⟨p'', trace', hmore⟩ | hmore :=
        ih p'
      · refine .inl ⟨move :: before, octets, after, p'', trace ++ trace', rfl, hne, fun rest => ?_⟩
        rw [List.cons_append, hread, hmore]
        rfl
      · refine .inr (.inl ⟨p'', trace ++ trace', fun rest => ?_⟩)
        rw [List.cons_append, hread, hmore, Reading.after_after]
      · refine .inr (.inr fun rest octets h => hmore rest octets ?_)
        rwa [List.cons_append, hread] at h
    · exact .inr (.inr fun rest => hread (moves ++ rest))

/-- A read that leaves a part of the script leaves what may stand in its place. -/
theorem readFrom_of_append (h : (readFrom patience (pre ++ tail) p).result = .ok (.octets octets))
    (hscript : (readFrom patience (pre ++ tail) p).peer.script = rest ++ tail) (tail' : List Move) :
    readFrom patience (pre ++ tail') p =
      { readFrom patience (pre ++ tail) p with
        peer := { (readFrom patience (pre ++ tail) p).peer with script := rest ++ tail' } } := by
  obtain ⟨before, octets', after, p', trace, rfl, -, hread⟩ | ⟨p', trace, hread⟩ | hread :=
    readFrom_append_cases patience pre p
  · rw [hread] at hscript ⊢
    rw [hread, List.append_cancel_right hscript]
  · -- the octets would come from the part that is left
    rw [hread] at h hscript
    have hlt := length_readFrom_script_lt h
    have hlength := congrArg List.length hscript
    rw [List.length_append] at hlength
    change (readFrom patience tail p').peer.script.length = _ at hlength
    omega
  · exact absurd h (hread tail octets)

/-- A read that ends with a move reads what else the move sends, whatever comes behind it; if it
sends nothing, the read goes on there. -/
theorem readFrom_of_send {sent : Bytes} {r : Reading}
    (hr : readFrom patience (pre ++ .send sent :: tail) p = r) (h : r.result = .ok (.octets octets))
    (hscript : r.peer.script = tail) (new : Bytes) (tail' : List Move) :
    readFrom patience (pre ++ .send new :: tail') p =
      if new = [] then (readFrom patience tail' { r.peer with script := tail' }).after r.trace
      else { r with result := .ok (.octets new), peer := { r.peer with script := tail' } } := by
  obtain ⟨before, octets', after, p', trace, rfl, -, hread⟩ | ⟨p', trace, hread⟩ | hread :=
    readFrom_append_cases patience pre p
  · -- the read would leave the move
    rw [← hr, hread] at hscript
    have hlength := congrArg List.length hscript
    rw [List.length_append, List.length_cons] at hlength
    omega
  · by_cases hsent : sent.isEmpty
    · rw [hread, readFrom, if_pos hsent] at hr
      rw [← hr] at h hscript
      have hlt := length_readFrom_script_lt h
      have hlength := congrArg List.length hscript
      change (readFrom patience tail (p'.advance tail p'.now)).peer.script.length = _ at hlength
      omega
    rw [hread, readFrom, if_neg hsent] at hr
    rw [hread, readFrom, ← hr]
    by_cases hnew : new = []
    · subst hnew
      rw [if_pos rfl, if_pos List.isEmpty_nil, Reading.after_after]
      rfl
    · rw [if_neg hnew, if_neg (mt List.isEmpty_iff.1 hnew)]
      rfl
  · rw [← hr] at h
    exact absurd h (hread _ octets)

/-- The octets that a read brings are those of one move, and the moves behind it are left. -/
theorem exists_script_eq_of_read (h : (p.read patience).result = .ok (.octets octets)) :
    ∃ before, p.script = before ++ .send octets :: (p.read patience).peer.script := by
  rw [read] at h ⊢
  obtain ⟨before, octets', after, p', trace, hscript, -, hread⟩ | ⟨p', trace, hread⟩ | hread :=
    readFrom_append_cases patience p.script p
  · have hall := hread []
    rw [List.append_nil, List.append_nil] at hall
    rw [hall] at h ⊢
    cases h
    exact ⟨before, hscript⟩
  · have hall := hread []
    rw [List.append_nil] at hall
    rw [hall] at h
    cases h
  · have hall := hread [] octets
    rw [List.append_nil] at hall
    exact absurd h hall

end Peer

namespace Session

variable {s : Settings} {p peer : Peer} {r : Reading} {trace : Trace} {phase : Phase}
  {octets : Bytes} {pre rest tail : List Move}

/-! ### Waits -/

/-- **A run comes to the same waits** whatever the peer does later. -/
theorem Reaches.of_append (h : Reaches s p trace phase peer) (hp : p.script = pre ++ tail)
    (hpeer : peer.script = rest ++ tail) (tail' : List Move) :
    Reaches s { p with script := pre ++ tail' } trace phase
      { peer with script := rest ++ tail' } := by
  induction h generalizing rest with
  | start =>
    obtain rfl := List.append_cancel_right (hp.symm.trans hpeer)
    exact .start
  | @turn trace phase peer r octets turn h hphase hr hinput hturn ih =>
    have hread := input?_eq_octets hinput
    obtain ⟨before, hscript⟩ := Peer.exists_script_eq_of_read (hr.symm ▸ hread)
    rw [hr, hpeer, ← List.cons_append, ← List.append_assoc] at hscript
    have hreach := ih hscript
    -- the read does not come to the moves that differ
    rw [Peer.read, hscript] at hr
    have hchanged := Peer.readFrom_of_append (hr.symm ▸ hread) (hr.symm ▸ hpeer) tail'
    rw [hr] at hchanged
    have hread' : Peer.read { peer with script := before ++ .send octets :: rest ++ tail' }
        (patience phase) = { r with peer := { r.peer with script := rest ++ tail' } } := by
      rw [Peer.read, Peer.readFrom_script]
      exact hchanged
    exact hreach.turn hphase hread' hinput hturn

/-- What is there of the next head at a wait is not a head yet. -/
theorem Reaches.parse_begun (h : Reaches s p trace phase peer) {begun : Bytes}
    (hbegun : phase.begun? = some begun) :
    Head.parse s.maxHeaderSize begun = .error .incomplete := by
  cases h with
  | start =>
    cases hbegun
    exact Head.parse_nil _
  | turn _ _ _ _ hturn =>
    subst hturn
    exact parse_begun_step hbegun

/-- Nor is it after octets that are taken there. -/
theorem Reaches.parse_begun_takes (h : Reaches s p trace phase peer) {now : Nat} {stopping : Bool}
    {begun : Bytes} (hbegun : (takes s now stopping phase octets).phase.begun? = some begun) :
    Head.parse s.maxHeaderSize begun = .error .incomplete := by
  by_cases hoctets : octets = []
  · subst hoctets
    exact h.parse_begun hbegun
  · rw [takes_of_ne_nil hoctets] at hbegun
    exact parse_begun_step hbegun

/-! ### What comes after a read -/

/-- The run from a turn on. -/
def fromTurn (s : Settings) (turn : Turn) (peer : Peer) : Run :=
  (runFrom s none turn.phase 0 peer).after (shown peer.now turn.actions)

/-- The run from a wait at which octets arrive, if there are any. -/
def arrives (s : Settings) (phase : Phase) (peer : Peer) (octets : Bytes) : Run :=
  fromTurn s (takes s peer.now peer.isStopping phase octets) peer

theorem arrives_nil (s : Settings) (phase : Phase) (peer : Peer) :
    arrives s phase peer [] = runFrom s none phase 0 peer := rfl

theorem arrives_of_ne_nil (hoctets : octets ≠ []) :
    arrives s phase peer octets =
      fromTurn s (step s peer.now peer.isStopping phase (.octets octets)) peer := by
  rw [arrives, takes_of_ne_nil hoctets]

/-- The run from a read in a phase. -/
def afterRead (s : Settings) (phase : Phase) (r : Reading) : Run :=
  match input? r.result with
  | none => { trace := [], ending := none, time := r.peer.now }
  | some (.octets octets) => arrives s phase r.peer octets
  | some input =>
    let turn := step s r.peer.now r.peer.isStopping phase input
    { trace := shown r.peer.now turn.actions, ending := ending? turn.phase, time := r.peer.now }

theorem Run.after_after (r : Run) (trace trace' : Trace) :
    (r.after trace').after trace = r.after (trace ++ trace') := by
  rw [after, after, after, List.append_assoc]

theorem sends_after (r : Run) (trace : Trace) :
    (r.after trace).trace.sends = trace.sends ++ r.trace.sends :=
  Trace.sends_append _ _

/-- **A run without failures** is a read, and what comes after it. -/
theorem runFrom_eq_afterRead (hphase : ∀ ending, phase ≠ .ended ending)
    (hr : peer.read (patience phase) = r) (sends : Nat) :
    runFrom s none phase sends peer = (afterRead s phase r).after r.trace := by
  unfold afterRead
  cases hinput : input? r.result with
  | none =>
    rw [runFrom_of_forever hphase hr hinput, Run.after, List.append_nil]
  | some input =>
    obtain ⟨htook, hshown⟩ := take_none s phase sends r.peer input
    by_cases hoctets : ∃ octets, input = .octets octets
    · obtain ⟨octets, rfl⟩ := hoctets
      have hne := Peer.ne_nil_of_read hr (input?_eq_octets hinput)
      rw [runFrom_of_octets hphase hr hinput, htook, hshown, runFrom_none s _ _ 0]
      dsimp only
      rw [arrives_of_ne_nil hne]
      exact (Run.after_after _ _ _).symm
    · rw [runFrom_of_input hphase hr hinput fun octets heq => hoctets ⟨octets, heq⟩, htook, hshown]
      cases input with
      | octets octets => exact absurd ⟨octets, rfl⟩ hoctets
      | endOfInput | failure | deadline | stop => rfl

theorem fromTurn_after (turn : Turn) (actions : List Action) :
    fromTurn s (turn.after actions) peer = (fromTurn s turn peer).after
      (shown peer.now actions) := by
  rw [fromTurn, fromTurn, Run.after_after, Turn.after, shown_append]

/-- Octets that arrive between two requests, and more at the same time. -/
theorem arrives_append
    (h : (takes s peer.now peer.isStopping phase octets).phase.begun?.isSome) (more : Bytes) :
    arrives s phase peer (octets ++ more) =
      (arrives s (takes s peer.now peer.isStopping phase octets).phase peer more).after
        (shown peer.now (takes s peer.now peer.isStopping phase octets).actions) := by
  rw [arrives, takes_append h, fromTurn_after, arrives]

/-- **A run in which other octets arrive at a wait** is the same up to there, and goes on with what
the connection does with them. What comes behind them may be different, too. -/
theorem run_of_change (h : Reaches s p trace phase peer) (hphase : ∀ ending, phase ≠ .ended ending)
    (hr : peer.read (patience phase) = r) (hread : r.result = .ok (.octets octets))
    (hscript : p.script = pre ++ .send octets :: r.peer.script) (new : Bytes) (tail : List Move) :
    run s none { p with script := pre ++ .send new :: tail } =
      (arrives s phase { r.peer with script := tail } new).after (trace ++ r.trace) := by
  obtain ⟨before, hbefore⟩ := Peer.exists_script_eq_of_read (hr.symm ▸ hread)
  rw [hr] at hbefore
  obtain ⟨sends, hrun⟩ := (h.of_append hscript hbefore (.send new :: tail)).run_eq
  have hchanged : Peer.read { peer with script := before ++ .send new :: tail } (patience phase) =
      if new = [] then (Peer.read { r.peer with script := tail } (patience phase)).after r.trace
      else { r with result := .ok (.octets new), peer := { r.peer with script := tail } } := by
    rw [Peer.read, hbefore] at hr
    rw [Peer.read, Peer.readFrom_script]
    exact Peer.readFrom_of_send hr hread rfl new tail
  rw [hrun, runFrom_eq_afterRead hphase hchanged, Run.after_after]
  by_cases hnew : new = []
  · subst hnew
    rw [if_pos rfl, arrives_nil, runFrom_eq_afterRead hphase rfl, Run.after_after]
    exact congrArg (Run.after _) (List.append_assoc _ _ _).symm
  · rw [if_neg hnew]
    rfl

/-- What is sent if other octets arrive behind those of earlier requests. -/
theorem sends_run_of_change {before begun : Bytes} (h : Reaches s p trace phase peer)
    (hr : peer.read (patience phase) = r) (hread : r.result = .ok (.octets octets))
    (hscript : p.script = pre ++ .send octets :: r.peer.script)
    (hbegun : (takes s r.peer.now r.peer.isStopping phase before).phase.begun? = some begun)
    (new : Bytes) (tail : List Move) :
    (run s none { p with script := pre ++ .send (before ++ new) :: tail }).trace.sends =
      (trace ++ r.trace).sends ++ ((shown r.peer.now
        (takes s r.peer.now r.peer.isStopping phase before).actions).sends ++
          (arrives s (takes s r.peer.now r.peer.isStopping phase before).phase
            { r.peer with script := tail } new).trace.sends) := by
  have hbetween : (takes s r.peer.now r.peer.isStopping phase before).phase.begun?.isSome :=
    hbegun ▸ rfl
  rw [run_of_change h (ne_ended_of_takes hbegun) hr hread hscript, sends_after,
    @arrives_append s { r.peer with script := tail } phase before hbetween new, sends_after]
  rfl

end Session

/-! ### Moves without octets -/

namespace Peer

variable {p q : Peer}

/-- The moves of a script but those that send no octets. -/
def bare (moves : List Move) : List Move := moves.filter (· ≠ .send [])

/-- Two peers are at the same point, up to moves that send no octets and the numbers of the
moves. -/
structure SameMoves (p q : Peer) : Prop where
  script_eq : bare p.script = bare q.script
  now_eq : p.now = q.now
  stopped_eq : p.stopped = q.stopped
  stopAt_eq : p.stopAt = q.stopAt

theorem SameMoves.symm (h : p.SameMoves q) : q.SameMoves p :=
  ⟨h.script_eq.symm, h.now_eq.symm, h.stopped_eq.symm, h.stopAt_eq.symm⟩

theorem SameMoves.trans {q' : Peer} (h : p.SameMoves q) (h' : q.SameMoves q') : p.SameMoves q' :=
  ⟨h.script_eq.trans h'.script_eq, h.now_eq.trans h'.now_eq, h.stopped_eq.trans h'.stopped_eq,
    h.stopAt_eq.trans h'.stopAt_eq⟩

theorem SameMoves.isStopping_eq (h : p.SameMoves q) : p.isStopping = q.isStopping := by
  rw [isStopping, isStopping, h.now_eq, h.stopped_eq, h.stopAt_eq]

theorem bare_send {octets : Bytes} (h : octets ≠ []) (moves : List Move) :
    bare (.send octets :: moves) = .send octets :: bare moves :=
  List.filter_cons_of_pos (decide_eq_true fun hmove => h (Move.send.inj hmove))

theorem bare_bare (moves : List Move) : bare (bare moves) = bare moves := by
  rw [bare, bare, List.filter_filter]
  simp only [Bool.and_self]

/-- What ends a wait does not depend on the moves behind it. -/
theorem interruption?_of_script (p : Peer) (script : List Move) (index : Nat) (patience : Patience)
    (target : Option Nat) :
    ({ p with script, index } : Peer).interruption? patience target =
      p.interruption? patience target := rfl

/-- A read brings the same if moves without octets are left out. -/
theorem readFrom_bare (patience : Patience) (moves : List Move) (p : Peer) (script : List Move)
    (index : Nat) :
    (readFrom patience moves p).result =
        (readFrom patience (bare moves) { p with script, index }).result ∧
      (readFrom patience moves p).peer.SameMoves
        (readFrom patience (bare moves) { p with script, index }).peer := by
  induction moves generalizing p script index with
  | nil => exact ⟨rfl, rfl, rfl, rfl, rfl⟩
  | cons move rest ih =>
    cases move with
    | send octets =>
      by_cases hnil : octets = []
      · subst hnil
        exact ih (p.advance rest p.now) script index
      · have hempty := mt List.isEmpty_iff.1 hnil
        rw [bare_send hnil, readFrom, readFrom, if_neg hempty, if_neg hempty]
        exact ⟨rfl, (bare_bare rest).symm, rfl, rfl, rfl⟩
    | close | fail => exact ⟨rfl, (bare_bare rest).symm, rfl, rfl, rfl⟩
    | wait ms =>
      have hbare : bare (.wait ms :: rest) = .wait ms :: bare rest := rfl
      rw [hbare, readFrom, readFrom, interruption?_of_script p script index]
      cases p.interruption? patience (some (p.now + ms)) with
      | none => exact ih (p.advance rest (p.now + ms)) (bare rest) (index + 1)
      | some interruption => exact ⟨rfl, (bare_bare (.wait _ :: rest)).symm, rfl, rfl, rfl⟩
    | hang =>
      have hbare : bare (.hang :: rest) = .hang :: bare rest := rfl
      rw [hbare, readFrom, readFrom, interruption?_of_script p script index]
      cases p.interruption? patience none with
      | none => exact ⟨rfl, (bare_bare (.hang :: rest)).symm, rfl, rfl, rfl⟩
      | some interruption => exact ⟨rfl, (bare_bare (.hang :: rest)).symm, rfl, rfl, rfl⟩
    | stopServer =>
      have hbare : bare (.stopServer :: rest) = .stopServer :: bare rest := rfl
      rw [hbare, readFrom, readFrom]
      dsimp only
      by_cases hidle : patience.idle
      · rw [if_pos hidle, if_pos hidle]
        exact ⟨rfl, (bare_bare rest).symm, rfl, rfl, rfl⟩
      · rw [if_neg hidle, if_neg hidle,
          interruption?_of_script { p with stopped := true } script index]
        cases ({ p with stopped := true } : Peer).interruption? patience (some (p.now + 1)) with
        | none =>
          exact ih (({ p with stopped := true } : Peer).advance rest (p.now + 1)) (bare rest)
            (index + 1)
        | some interruption => exact ⟨rfl, (bare_bare (.wait _ :: rest)).symm, rfl, rfl, rfl⟩

/-- Peers with the same moves are read alike. -/
theorem SameMoves.read (h : p.SameMoves q) (patience : Patience) :
    (p.read patience).result = (q.read patience).result ∧
      (p.read patience).peer.SameMoves (q.read patience).peer := by
  obtain ⟨hresult, hpeer⟩ := readFrom_bare patience p.script p q.script q.index
  obtain ⟨hresult', hpeer'⟩ := readFrom_bare patience q.script q q.script q.index
  rw [h.script_eq, h.now_eq, h.stopped_eq, h.stopAt_eq] at hresult hpeer
  exact ⟨hresult.trans hresult'.symm, hpeer.trans hpeer'.symm⟩

end Peer

namespace Session

variable {s : Settings} {p q : Peer} {pre tail : List Move}

/-- A run sends what is sent after its first read. -/
theorem sends_runFrom_eq {phase : Phase} {r : Reading} (hphase : ∀ ending, phase ≠ .ended ending)
    (hr : p.read (patience phase) = r) :
    (runFrom s none phase 0 p).trace.sends = (afterRead s phase r).trace.sends := by
  rw [runFrom_eq_afterRead hphase hr, sends_after, ← hr, Peer.sends_read, List.nil_append]

/-- What is sent does not depend on moves that send no octets. -/
theorem sends_runFrom_of_sameMoves (h : p.SameMoves q) (phase : Phase) :
    (runFrom s none phase 0 p).trace.sends = (runFrom s none phase 0 q).trace.sends := by
  induction hn : p.script.length using Nat.strongRecOn generalizing phase p q with
  | ind n ih =>
    by_cases hended : ∃ ending, phase = .ended ending
    · obtain ⟨ending, rfl⟩ := hended
      rw [runFrom, runFrom]
    have hphase : ∀ ending, phase ≠ .ended ending := fun ending hphase => hended ⟨ending, hphase⟩
    obtain ⟨hresult, hpeer⟩ := h.read (patience phase)
    rw [sends_runFrom_eq hphase rfl, sends_runFrom_eq hphase rfl, afterRead, afterRead, ← hresult,
      ← hpeer.now_eq, ← hpeer.isStopping_eq]
    cases hinput : input? (p.read (patience phase)).result with
    | none => rfl
    | some input =>
      cases input with
      | octets octets =>
        have hlt := Peer.length_read_script_lt (input?_eq_octets hinput)
        dsimp only
        rw [arrives, arrives, fromTurn, fromTurn, sends_after, sends_after,
          ih _ (hn ▸ hlt) hpeer _ rfl, hpeer.now_eq, hpeer.isStopping_eq]
      | endOfInput | failure | deadline | stop => rfl

/-- **A move without octets makes no difference** to what is sent. -/
theorem sends_run_of_send_nil (s : Settings) (p : Peer) (pre tail : List Move) :
    (run s none { p with script := pre ++ .send [] :: tail }).trace.sends =
      (run s none { p with script := pre ++ tail }).trace.sends := by
  have hbare : Peer.bare (pre ++ .send [] :: tail) = Peer.bare (pre ++ tail) := by
    rw [Peer.bare, Peer.bare, List.filter_append, List.filter_append]
    rfl
  have hsame : Peer.SameMoves { p with script := pre ++ .send [] :: tail }
      { p with script := pre ++ tail } := ⟨hbare, rfl, rfl, rfl⟩
  exact sends_runFrom_of_sameMoves hsame _

end Session

end HttpEcho
