import HttpEcho.Proofs.Connection.Requests
import HttpEcho.Proofs.Peer
import HttpEcho.Proofs.Session.Course

/-!
# The requests of a run

The octets that are received in a whole run are divided into requests, and no more final responses
are sent than there are requests (`Session.answers_run`).
-/

namespace HttpEcho

open Connection

/-- The number of final responses that are sent. -/
def Trace.finals (trace : Trace) : Nat := trace.sends.countP (· ≠ continueResponse)

theorem Trace.sends_append (trace trace' : Trace) :
    Trace.sends (trace ++ trace') = trace.sends ++ trace'.sends := by
  rw [sends, events, List.map_append, List.filterMap_append]
  rfl

theorem Trace.finals_append (trace trace' : Trace) :
    Trace.finals (trace ++ trace') = trace.finals + trace'.finals := by
  rw [finals, sends_append, List.countP_append]
  rfl

namespace Session

variable {s : Settings} (failure? : Option SendFailure)

/-- Performing actions receives nothing. -/
theorem moves_perform (now sends : Nat) (actions : List Action) :
    Trace.moves (.stamp now (perform failure? sends actions).events) = [] := by
  fun_induction perform failure? sends actions with
  | case2 _ _ _ ih | case3 _ _ ih | case5 _ _ _ _ ih => exact ih
  | case1 | case4 => rfl

/-- Performing actions sends no more than they say. -/
theorem finals_perform (now sends : Nat) (actions : List Action) :
    Trace.finals (.stamp now (perform failure? sends actions).events) ≤
      actions.countP Action.isFinal := by
  fun_induction perform failure? sends actions with
  | case1 => exact Nat.le_refl 0
  | case2 sends notice rest ih =>
    rw [List.countP_cons_of_neg Bool.false_ne_true]
    exact ih
  | case3 sends rest ih =>
    rw [List.countP_cons_of_neg Bool.false_ne_true]
    exact ih
  | case4 => exact Nat.zero_le _
  | case5 sends octets rest _ ih =>
    rw [List.countP_cons]
    have hsent : Trace.finals (.stamp now ((perform failure? (sends + 1) rest).after
        (.sent octets)).events) =
          Trace.finals (.stamp now (perform failure? (sends + 1) rest).events) +
            if (Action.send octets).isFinal then 1 else 0 :=
      List.countP_cons (p := fun octets => decide (octets ≠ continueResponse))
    rw [hsent]
    exact Nat.add_le_add_right ih _

/-- A turn as it comes out answers no more than the turn says. -/
theorem answers_take {phase : Phase} {peer : Peer} {input : Input} {octets : Bytes}
    (h : (step s peer.now peer.isStopping phase input).Answers s octets) (sends : Nat) :
    ∃ requests, (take s failure? phase sends peer input).phase.Divides s octets requests ∧
      (take s failure? phase sends peer input).trace.finals ≤ requests.length := by
  obtain ⟨requests, hdivides, hcount⟩ := h
  refine ⟨requests, ?_, Nat.le_trans (finals_perform failure? _ _ _) hcount⟩
  unfold take
  dsimp only
  split
  · obtain ⟨hrequests, left, hoctets, -⟩ := hdivides
    exact ⟨hrequests, left, hoctets, fun hgoing => absurd rfl (hgoing _)⟩
  · exact hdivides

/-- What a read brings is what arrives with it. -/
theorem arrived_input {result : Except Silence Arrival} {input : Input}
    (h : input? result = some input) : input.arrived = Peer.arrived result := by
  match result with
  | .ok (.octets _) | .ok .endOfInput | .ok (.failure _) | .error .deadline | .error .stop =>
    obtain rfl := Option.some.inj h
    rfl

theorem input_ne_octets_nil {peer : Peer} {patience : Patience} {input : Input}
    (h : input? (peer.read patience).result = some input) : input ≠ .octets [] := by
  rintro rfl
  exact peer.read_ne_octets_nil patience (input?_eq_octets h)

/-- Reading and then performing actions receives what is read, and sends what is performed. -/
theorem account_turn {peer : Peer} {patience : Patience} {input : Input} {trace : Trace}
    (hinput : input? (peer.read patience).result = some input) (hmoves : trace.moves = []) :
    (∀ move ∈ Trace.moves ((peer.read patience).trace ++ trace), peer.index ≤ move) ∧
      peer.received ((peer.read patience).trace ++ trace) = input.arrived ∧
        Trace.finals ((peer.read patience).trace ++ trace) = trace.finals := by
  have hread := peer.accounts_read patience
  refine ⟨?_, ?_, ?_⟩
  · rw [Trace.moves_append, hmoves, List.append_nil]
    exact hread.since
  · rw [Peer.received_append, hread.received_eq, Peer.received_of_moves_eq_nil hmoves,
      List.append_nil, arrived_input hinput]
  · rw [Trace.finals_append, Trace.finals, Peer.sends_read, List.countP_nil, Nat.zero_add]

/-- The octets that a phase owes an answer and those received from then on are divided into
requests, with at most one final response for each of them. -/
theorem answers_runFrom (phase : Phase) (sends : Nat) (peer : Peer) :
    ∀ owed, phase.Owes s owed →
      (∀ move ∈ (runFrom s failure? phase sends peer).trace.moves, peer.index ≤ move) ∧
        ∃ requests left, Requests s requests ∧
          owed ++ peer.received (runFrom s failure? phase sends peer).trace =
            requests.flatten ++ left ∧
              (runFrom s failure? phase sends peer).trace.finals ≤ requests.length := by
  fun_induction runFrom s failure? phase sends peer with
  | case1 sends peer ending =>
    intro owed _
    exact ⟨List.forall_mem_nil _, [], owed, .nil, List.append_nil _, Nat.le_refl 0⟩
  | case2 phase sends peer hphase r hi =>
    intro owed _
    have hread : peer.Accounts r := peer.accounts_read _
    refine ⟨hread.since, [], owed ++ peer.received r.trace, .nil, rfl, ?_⟩
    rw [Trace.finals, Peer.sends_read]
    exact Nat.le_refl 0
  | case3 phase sends peer octets hphase r hi took ih =>
    intro owed howes
    have hread : peer.Accounts r := peer.accounts_read _
    have hmoves : took.trace.moves = [] := moves_perform failure? _ _ _
    have hturn : (∀ move ∈ Trace.moves (r.trace ++ took.trace), peer.index ≤ move) ∧
        peer.received (r.trace ++ took.trace) = octets ∧
          Trace.finals (r.trace ++ took.trace) = took.trace.finals := account_turn hi hmoves
    obtain ⟨hsince, hreceived, hfinals⟩ := hturn
    have hstep : (step s r.peer.now r.peer.isStopping phase (.octets octets)).Answers s
        (owed ++ Input.arrived (.octets octets)) :=
      answers_step howes (input_ne_octets_nil hi)
    obtain ⟨requests, ⟨hrequests, left, hleft, hgoing⟩, hcount⟩ := answers_take failure? hstep sends
    -- an ended connection may have left octets that are no request
    by_cases hended : ∃ ending, took.phase = .ended ending
    · obtain ⟨ending, hended⟩ := hended
      have hrest : runFrom s failure? took.phase took.sends r.peer =
          { trace := [], ending := some ending, time := r.peer.now } := by
        rw [hended, runFrom]
      rw [hrest, Run.after, List.append_nil]
      refine ⟨hsince, requests, left, hrequests, ?_, hfinals ▸ hcount⟩
      exact hreceived ▸ hleft
    · obtain ⟨hall, howes'⟩ := hgoing fun ending h => hended ⟨ending, h⟩
      obtain ⟨hsince', requests', left', hrequests', hleft', hcount'⟩ := ih left howes'
      refine ⟨?_, requests ++ requests', left', .append hall hrequests', ?_, ?_⟩
      · intro move hmove
        rw [Run.after, Trace.moves_append] at hmove
        rcases List.mem_append.1 hmove with hmove | hmove
        · exact hsince move hmove
        · exact Nat.le_trans hread.follows.index_le (hsince' move hmove)
      · have hleft : owed ++ octets = requests.flatten ++ left := hleft
        rw [Run.after, Peer.received_append, hreceived, ← hread.follows.received_eq hsince',
          ← List.append_assoc, hleft, List.append_assoc, hleft', List.flatten_append,
          List.append_assoc]
      · rw [Run.after, Trace.finals_append, hfinals, List.length_append]
        exact Nat.add_le_add hcount hcount'
  | case4 phase sends peer input _ hphase r hi took =>
    intro owed howes
    have hmoves : took.trace.moves = [] := moves_perform failure? _ _ _
    have hturn : (∀ move ∈ Trace.moves (r.trace ++ took.trace), peer.index ≤ move) ∧
        peer.received (r.trace ++ took.trace) = input.arrived ∧
          Trace.finals (r.trace ++ took.trace) = took.trace.finals := account_turn hi hmoves
    obtain ⟨hsince, hreceived, hfinals⟩ := hturn
    have hstep : (step s r.peer.now r.peer.isStopping phase input).Answers s
        (owed ++ Input.arrived input) :=
      answers_step howes (input_ne_octets_nil hi)
    obtain ⟨requests, ⟨hrequests, left, hleft, -⟩, hcount⟩ := answers_take failure? hstep sends
    refine ⟨hsince, requests, left, hrequests, ?_, hfinals ▸ hcount⟩
    exact hreceived ▸ hleft

/-- **A run answers its requests.** The octets received in it are divided into requests, with at
most one final response for each of them. -/
theorem answers_run (s : Settings) (failure? : Option SendFailure) (peer : Peer) :
    ∃ requests left, Requests s requests ∧
      peer.received (run s failure? peer).trace = requests.flatten ++ left ∧
        (run s failure? peer).trace.finals ≤ requests.length :=
  (answers_runFrom failure? (start s peer.now) 0 peer [] rfl).2

end Session

end HttpEcho
