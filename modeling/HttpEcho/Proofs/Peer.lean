import HttpEcho.Peer

/-!
# What was received

A trace says only by which moves of the peer octets arrived. `Peer.received` looks them up in the
script. A read hands over exactly the octets that its trace accounts for, and leaves a peer whose
moves have the same numbers (`Peer.accounts_read`), so that the octets of a whole run are those of
its reads, one after the other.
-/

namespace HttpEcho

/-- The number of the move whose octets were received. -/
def Event.move? : Event → Option Nat
  | .received move => some move
  | _ => none

/-- The numbers of the moves whose octets were received. -/
def Trace.moves (trace : Trace) : List Nat := trace.events.filterMap Event.move?

theorem Trace.moves_append (trace trace' : Trace) :
    Trace.moves (trace ++ trace') = trace.moves ++ trace'.moves := by
  rw [moves, events, List.map_append, List.filterMap_append]
  rfl

/-- The octets that a move sends. -/
def Move.octets : Move → Bytes
  | .send octets => octets
  | _ => []

theorem Reading.after_after (r : Reading) (trace trace' : Trace) :
    (r.after trace').after trace = r.after (trace ++ trace') := by
  rw [after, after, after, List.append_assoc]

namespace Peer

/-- The octets that the move with a number sends. -/
def sentBy (p : Peer) (move : Nat) : Bytes :=
  (p.script[move - p.index]?.map Move.octets).getD []

/-- The octets that were received according to a trace. -/
def received (p : Peer) (trace : Trace) : Bytes := trace.moves.flatMap p.sentBy

/-- The second peer is the first one some moves later: the moves that it has left are known to the
first one under the same numbers. -/
structure Follows (p p' : Peer) : Prop where
  index_le : p.index ≤ p'.index
  sentBy_eq : ∀ move, p'.index ≤ move → p'.sentBy move = p.sentBy move

/-- What a read hands over. -/
def arrived : Except Silence Arrival → Bytes
  | .ok (.octets octets) => octets
  | _ => []

/-- What a read does, in terms of the numbers of moves: the peer after it follows the one before,
and the trace accounts for what is handed over. -/
structure Accounts (p : Peer) (r : Reading) : Prop where
  follows : Follows p r.peer
  since : ∀ move ∈ r.trace.moves, p.index ≤ move
  received_eq : p.received r.trace = arrived r.result

variable {p p' p'' : Peer}

theorem received_append (p : Peer) (trace trace' : Trace) :
    p.received (trace ++ trace') = p.received trace ++ p.received trace' := by
  rw [received, Trace.moves_append, List.flatMap_append]
  rfl

theorem received_of_moves_eq_nil {trace : Trace} (h : trace.moves = []) :
    p.received trace = [] := by
  rw [received, h]
  rfl

theorem Follows.refl (p : Peer) : Follows p p := ⟨Nat.le_refl _, fun _ _ => rfl⟩

theorem Follows.trans (h : Follows p p') (h' : Follows p' p'') : Follows p p'' := by
  refine ⟨Nat.le_trans h.index_le h'.index_le, ?_⟩
  intro move hmove
  rw [h'.sentBy_eq move hmove, h.sentBy_eq move (Nat.le_trans h'.index_le hmove)]

/-- What a later peer accounts for, the first one accounts for alike. -/
theorem Follows.received_eq {trace : Trace} (h : Follows p p')
    (htrace : ∀ move ∈ trace.moves, p'.index ≤ move) : p'.received trace = p.received trace := by
  rw [received, received, List.flatMap_def, List.flatMap_def]
  refine congrArg List.flatten (List.map_congr_left ?_)
  intro move hmove
  exact h.sentBy_eq move (htrace move hmove)

/-! ### Single reads -/

/-- One move later. -/
theorem follows_of_cons {move : Move} (hscript : p.script = move :: p'.script)
    (hindex : p'.index = p.index + 1) : Follows p p' := by
  refine ⟨by omega, ?_⟩
  intro i hi
  rw [sentBy, sentBy, hscript, show i - p.index = (i - p'.index) + 1 by omega,
    List.getElem?_cons_succ]

/-- The first move is still under way. -/
theorem follows_of_pending {move move' : Move} {rest : List Move}
    (hscript : p.script = move :: rest) (hscript' : p'.script = move' :: rest)
    (hindex : p'.index = p.index) (hoctets : move'.octets = move.octets) : Follows p p' := by
  refine ⟨Nat.le_of_eq hindex.symm, ?_⟩
  intro i hi
  rw [sentBy, sentBy, hscript, hscript', hindex]
  cases i - p.index with
  | zero =>
    rw [List.getElem?_cons_zero, List.getElem?_cons_zero, Option.map_some, Option.map_some,
      hoctets]
  | succ k => rw [List.getElem?_cons_succ, List.getElem?_cons_succ]

/-- The next move sends octets. -/
theorem sentBy_index {octets : Bytes} {rest : List Move}
    (hscript : p.script = .send octets :: rest) : p.sentBy p.index = octets := by
  rw [sentBy, hscript, Nat.sub_self, List.getElem?_cons_zero]
  rfl

/-- A read that hands nothing over, and says so. -/
theorem accounts_of_moves_eq_nil {r : Reading} (hfollows : Follows p r.peer)
    (hmoves : r.trace.moves = []) (hresult : arrived r.result = []) : Accounts p r := by
  refine ⟨hfollows, ?_, (received_of_moves_eq_nil hmoves).trans hresult.symm⟩
  rw [hmoves]
  exact List.forall_mem_nil _

/-- A read that goes on after moves that hand nothing over. -/
theorem Accounts.after {r : Reading} {trace : Trace} (h : Accounts p' r) (hfollows : Follows p p')
    (hsince : ∀ move ∈ trace.moves, p.index ≤ move) (hreceived : p.received trace = []) :
    Accounts p (r.after trace) := by
  refine ⟨hfollows.trans h.follows, ?_, ?_⟩
  · intro move hmove
    rw [Reading.after, Trace.moves_append] at hmove
    rcases List.mem_append.1 hmove with hmove | hmove
    · exact hsince move hmove
    · exact Nat.le_trans hfollows.index_le (h.since move hmove)
  · rw [Reading.after, received_append, hreceived, List.nil_append,
      ← hfollows.received_eq h.since, h.received_eq]

theorem accounts_readFrom (patience : Patience) (script : List Move) (p : Peer) :
    p.script = script → Accounts p (readFrom patience script p) := by
  fun_induction readFrom patience script p with
  | case1 p =>
    intro hscript
    have hpeer : { p with script := [] } = p := by rw [← hscript]
    exact accounts_of_moves_eq_nil (hpeer.symm ▸ .refl p) rfl rfl
  | case2 octets rest p trace hempty ih =>
    intro hscript
    -- a move without octets is received too, and adds none
    have hreceived : p.received trace = p.sentBy p.index := List.append_nil _
    refine (ih rfl).after (follows_of_cons hscript rfl) ?_ ?_
    · exact List.forall_mem_singleton.2 (Nat.le_refl _)
    · rw [hreceived, sentBy_index hscript, List.isEmpty_iff.1 hempty]
  | case3 octets rest p trace hempty =>
    intro hscript
    have hreceived : p.received trace = p.sentBy p.index := List.append_nil _
    refine ⟨follows_of_cons hscript rfl, ?_, hreceived.trans (sentBy_index hscript)⟩
    exact List.forall_mem_singleton.2 (Nat.le_refl _)
  | case4 rest p | case5 kind rest p =>
    intro hscript
    exact accounts_of_moves_eq_nil (follows_of_cons hscript rfl) rfl rfl
  | case6 ms rest p silence time hsome =>
    intro hscript
    exact accounts_of_moves_eq_nil (follows_of_pending hscript rfl rfl rfl) rfl rfl
  | case7 ms rest p _ ih =>
    intro hscript
    have hnil : ∀ move ∈ Trace.moves [], p.index ≤ move := List.forall_mem_nil _
    exact (ih rfl).after (follows_of_cons hscript rfl) hnil rfl
  | case8 rest p | case9 rest p =>
    intro hscript
    exact accounts_of_moves_eq_nil (follows_of_pending hscript rfl rfl rfl) rfl rfl
  | case10 rest p asked stopped hidle =>
    intro hscript
    exact accounts_of_moves_eq_nil (follows_of_cons hscript rfl) rfl rfl
  | case11 rest p asked stopped hidle silence time _ =>
    intro hscript
    exact accounts_of_moves_eq_nil (follows_of_pending hscript rfl rfl rfl) rfl rfl
  | case12 rest p asked stopped hidle _ ih =>
    intro hscript
    exact (ih rfl).after (follows_of_cons hscript rfl) (List.forall_mem_nil _) rfl

/-- **A read accounts for what it hands over.** -/
theorem accounts_read (p : Peer) (patience : Patience) : Accounts p (p.read patience) :=
  accounts_readFrom patience p.script p rfl

/-- A read sends nothing. -/
theorem sends_read (p : Peer) (patience : Patience) : (p.read patience).trace.sends = [] := by
  unfold read
  generalize p.script = script
  fun_induction readFrom patience script p with
  | case2 octets rest p _ _ ih | case12 rest p _ _ _ _ ih => exact ih
  | case7 ms rest p _ ih => exact ih
  | _ => rfl

/-- A read hands over at least one octet, if any. -/
theorem read_ne_octets_nil (p : Peer) (patience : Patience) :
    (p.read patience).result ≠ .ok (.octets []) := by
  unfold read
  generalize p.script = script
  fun_induction readFrom patience script p with
  | case2 octets rest p _ _ ih | case12 rest p _ _ _ _ ih => exact ih
  | case7 ms rest p _ ih => exact ih
  | case3 octets rest p _ hempty =>
    intro h
    exact hempty (Arrival.octets.inj (Except.ok.inj h) ▸ rfl)
  | _ =>
    intro h
    cases h

theorem ne_nil_of_read {patience : Patience} {r : Reading} {octets : Bytes}
    (hr : p.read patience = r) (h : r.result = .ok (.octets octets)) : octets ≠ [] := by
  rintro rfl
  exact p.read_ne_octets_nil patience (hr ▸ h)

/-- The trace of a read that hands octets over says so. -/
theorem trace_read_ne_nil {patience : Patience} {octets : Bytes}
    (h : (p.read patience).result = .ok (.octets octets)) : (p.read patience).trace ≠ [] := by
  intro htrace
  have hreceived := (p.accounts_read patience).received_eq
  rw [htrace, h, received_of_moves_eq_nil rfl] at hreceived
  rw [arrived] at hreceived
  exact p.read_ne_octets_nil patience (hreceived ▸ h)

/-- Reading goes by the moves of a list, whatever the script is. -/
theorem readFrom_script (patience : Patience) (moves : List Move) (p : Peer) (script : List Move) :
    readFrom patience moves { p with script } = readFrom patience moves p := by
  cases moves with
  | nil => rfl
  | cons move rest => cases move <;> rfl

/-! ### Reads from a stream -/

/-- A read takes the first part of a stream that is not empty, or goes on to what follows. -/
theorem readFrom_sends (patience : Patience) (parts : List Bytes) (more : List Move) (p : Peer) :
    (∃ before part after, parts = before ++ part :: after ∧ before.flatten = [] ∧ part ≠ [] ∧
      (readFrom patience (parts.map .send ++ more) p).result = .ok (.octets part) ∧
        (readFrom patience (parts.map .send ++ more) p).peer.script = after.map .send ++ more) ∨
    parts.flatten = [] ∧ ∃ (p' : Peer) (trace : Trace),
      readFrom patience (parts.map .send ++ more) p = (readFrom patience more p').after trace := by
  induction parts generalizing p with
  | nil => exact .inr ⟨rfl, p, [], rfl⟩
  | cons part parts ih =>
    rw [List.map_cons, List.cons_append, readFrom]
    by_cases hempty : part.isEmpty
    · rw [if_pos hempty]
      obtain rfl := List.isEmpty_iff.1 hempty
      obtain ⟨before, part', after, rfl, hbefore, hpart⟩ | ⟨hflatten, p', trace, hread⟩ :=
        ih (p.advance (parts.map .send ++ more) p.now)
      · exact .inl ⟨[] :: before, part', after, rfl, hbefore, hpart⟩
      · refine .inr ⟨hflatten, p', Trace.stamp p.now [.received p.index] ++ trace, ?_⟩
        rw [hread, Reading.after, Reading.after, Reading.after, List.append_assoc]
    · rw [if_neg hempty]
      exact .inl ⟨[], part, parts, rfl, rfl, mt List.isEmpty_iff.2 hempty, rfl, rfl⟩

end Peer

end HttpEcho
