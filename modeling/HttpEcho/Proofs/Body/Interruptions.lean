import HttpEcho.Proofs.Body.Bounds
import HttpEcho.Proofs.Body.Decoding

/-!
# Interrupted bodies

A read of a body may find the connection closed, or fail, and the body may be asked for again after
that. Two peers are compared, of which the second does what the first does with interruptions in
between. A read of the second one either does the same or comes to an interruption, and then the
read of the first one goes on behind it (`Peer.readFrom_interleaves`). So a call for the next chunk
fails once for each interruption that it comes to, and then gives what it gives without them
(`Session.Source.Interrupted.next`), by induction on the moves of the second peer. For all calls
together this is `Session.Source.calls_of_interruptions`: nothing is lost by an interruption, and a
refusal is final.
-/

namespace HttpEcho

/-- The third list consists of the first two, each in its order. -/
inductive Interleaves {α : Type} : List α → List α → List α → Prop
  | nil : Interleaves [] [] []
  | left {x : α} {xs ys zs : List α} : Interleaves xs ys zs → Interleaves (x :: xs) ys (x :: zs)
  | right {y : α} {xs ys zs : List α} : Interleaves xs ys zs → Interleaves xs (y :: ys) (y :: zs)

namespace Interleaves

variable {α : Type} {xs ys zs xs' ys' zs' : List α}

theorem append_left (h : Interleaves xs ys zs) (before : List α) :
    Interleaves (before ++ xs) ys (before ++ zs) := by
  induction before with
  | nil => exact h
  | cons x before ih => exact .left ih

theorem append_right (h : Interleaves xs ys zs) (before : List α) :
    Interleaves xs (before ++ ys) (before ++ zs) := by
  induction before with
  | nil => exact h
  | cons y before ih => exact .right ih

end Interleaves

/-- What may come between the octets that a peer sends: one read finds the connection closed, or
fails. -/
inductive Interruption where
  | endOfInput
  | failure (kind : FaultKind)
  deriving DecidableEq, Repr

namespace Interruption

/-- The move of the peer. -/
def move : Interruption → Move
  | endOfInput => .close
  | failure kind => .fail kind

/-- What the read brings. -/
def arrival : Interruption → Arrival
  | endOfInput => .endOfInput
  | failure kind => .failure kind

/-- The error of a body that needs what the read does not bring. -/
def error : Interruption → BodyError
  | endOfInput => .unexpectedEof
  | failure kind => .io kind.fault

end Interruption

/-! ### Reads -/

namespace Peer

/-- A read that waits as long as it takes ends with a move, in the same way whatever else the peer
does, or passes over it. -/
theorem readFrom_patient_cases (move : Move) :
    (∃ result kept, ∀ rest p, (readFrom ⟨none, false⟩ (move :: rest) p).result = result ∧
      (readFrom ⟨none, false⟩ (move :: rest) p).peer.script = kept ++ rest) ∨
    ∀ rest p, ∃ p' trace, readFrom ⟨none, false⟩ (move :: rest) p =
      (readFrom ⟨none, false⟩ rest p').after trace := by
  cases move with
  | send octets =>
    by_cases hempty : octets.isEmpty
    · refine .inr fun rest p => ⟨p.advance rest p.now, .stamp p.now [.received p.index], ?_⟩
      rw [readFrom, if_pos hempty]
    · refine .inl ⟨.ok (.octets octets), [], fun rest p => ?_⟩
      rw [readFrom, if_neg hempty]
      exact ⟨rfl, rfl⟩
  | close => exact .inl ⟨.ok .endOfInput, [], fun rest p => ⟨rfl, rfl⟩⟩
  | fail kind => exact .inl ⟨.ok (.failure kind), [], fun rest p => ⟨rfl, rfl⟩⟩
  | hang => exact .inl ⟨.error .forever, [.hang], fun rest p => ⟨rfl, rfl⟩⟩
  | wait ms => exact .inr fun rest p => ⟨p.advance rest (p.now + ms), [], rfl⟩
  | stopServer =>
    exact .inr fun rest p => ⟨({ p with stopped := true } : Peer).advance rest (p.now + 1),
      .stamp p.now [.stopAsked], rfl⟩

/-- **A read of a peer that is interrupted** does what it does without the interruptions, or comes
to the first of them, where the read without them goes on behind it. -/
theorem readFrom_interleaves {moves moves' : List Move} {inserted : List Interruption}
    (h : Interleaves moves (inserted.map Interruption.move) moves') (p p' : Peer) :
    ((readFrom ⟨none, false⟩ moves p).result = (readFrom ⟨none, false⟩ moves' p').result ∧
      Interleaves (readFrom ⟨none, false⟩ moves p).peer.script (inserted.map Interruption.move)
        (readFrom ⟨none, false⟩ moves' p').peer.script) ∨
    ∃ first others left p₁ trace, inserted = first :: others ∧
      (readFrom ⟨none, false⟩ moves' p').result = .ok first.arrival ∧
        (readFrom ⟨none, false⟩ moves' p').peer.script.length < moves'.length ∧
          Interleaves left (others.map Interruption.move)
            (readFrom ⟨none, false⟩ moves' p').peer.script ∧
          readFrom ⟨none, false⟩ moves p = (readFrom ⟨none, false⟩ left p₁).after trace := by
  generalize hinserted : inserted.map Interruption.move = moved at h
  induction h generalizing inserted p p' with
  | nil => exact .inl ⟨rfl, .nil⟩
  | @left move moves moved moves' h ih =>
    obtain ⟨result, kept, hread⟩ | hread := readFrom_patient_cases move
    · obtain ⟨hresult, hscript⟩ := hread moves p
      obtain ⟨hresult', hscript'⟩ := hread moves' p'
      rw [hresult, hresult', hscript, hscript']
      exact .inl ⟨rfl, h.append_left kept⟩
    · obtain ⟨p₁, trace, hread₁⟩ := hread moves p
      obtain ⟨p₁', trace', hread₁'⟩ := hread moves' p'
      rw [hread₁, hread₁']
      obtain hsame | ⟨first, others, left, p₂, trace₂, rfl, hresult, hlt, hleft, hread₂⟩ :=
        ih p₁ p₁' hinserted
      · exact .inl hsame
      · refine .inr ⟨first, others, left, p₂, trace ++ trace₂, rfl, hresult, ?_, hleft, ?_⟩
        · exact Nat.lt_succ_of_lt hlt
        · rw [hread₂, Reading.after_after]
  | @right move moves moved moves' h ih =>
    obtain ⟨first, others, rfl, rfl, rfl⟩ := List.map_eq_cons_iff.1 hinserted
    refine .inr ⟨first, others, moves, p, [], rfl, ?_⟩
    cases first with
    | endOfInput | failure => exact ⟨rfl, Nat.lt_succ_self _, h, rfl⟩

end Peer

/-! ### Calls -/

namespace Session.Source

variable {source source' : Source} {inserted : List Interruption}

/-- The second peer does what the first one does, with interruptions in between. -/
structure Interrupted (source : Source) (inserted : List Interruption) (source' : Source) :
    Prop where
  body_eq : source'.body = source.body
  buffer_eq : source'.buffer = source.buffer
  script : Interleaves source.peer.script (inserted.map Interruption.move) source'.peer.script

/-- A call whose read goes on somewhere goes on there. -/
theorem next_of_read_after {peer : Peer} {trace : Trace}
    (h : (source.body.advance source.buffer).outcome = .wait)
    (hread : source.peer.read ⟨none, false⟩ = (peer.read ⟨none, false⟩).after trace) :
    let later : Source := ⟨(source.body.advance source.buffer).body,
      (source.body.advance source.buffer).rest, peer⟩
    source.next.result = later.next.result ∧ source.next.source = later.next.source := by
  intro later
  have hagain : later.body.advance later.buffer = source.body.advance source.buffer :=
    Body.advance_advance fun octets hchunk => nomatch h.symm.trans hchunk
  have hresult : (source.peer.read ⟨none, false⟩).result = (peer.read ⟨none, false⟩).result := by
    rw [hread, Reading.after]
  have hpeer : (source.peer.read ⟨none, false⟩).peer = (peer.read ⟨none, false⟩).peer := by
    rw [hread, Reading.after]
  have hlater : (later.body.advance later.buffer).outcome = .wait := hagain ▸ h
  by_cases hoctets : ∃ octets, (peer.read ⟨none, false⟩).result = .ok (.octets octets)
  · obtain ⟨octets, hoctets⟩ := hoctets
    rw [next_of_octets h (hresult.trans hoctets), next_of_octets hlater hoctets, hagain, hpeer]
    exact ⟨rfl, rfl⟩
  · have hnone := not_exists.1 hoctets
    rw [next_of_noOctets h (hresult ▸ hnone), next_of_noOctets hlater hnone, hresult, hpeer, hagain]
    exact ⟨rfl, rfl⟩

/-- Asking until no interruption is met gives a result, and leaves a source to which the
interruptions that are still to come are added. -/
inductive Recovers (result : Chunk) (next : Source) : List Interruption → Source → Prop
  | here {inserted : List Interruption} {source' : Source} : source'.next.result = result →
      next.Interrupted inserted source'.next.source → Recovers result next inserted source'
  | again {first : Interruption} {others : List Interruption} {source' : Source} :
      source'.next.result = .failed first.error → Recovers result next others source'.next.source →
        Recovers result next (first :: others) source'

theorem Recovers.congr {result : Chunk} {next other : Source}
    (h : Recovers result next inserted other) (hresult : source'.next.result = other.next.result)
    (hsource : source'.next.source = other.next.source) :
    Recovers result next inserted source' := by
  cases h with
  | here hother hnext => exact .here (hresult.trans hother) (hsource ▸ hnext)
  | again hother hrest => exact .again (hresult.trans hother) (hsource ▸ hrest)

/-- **A call of a reader that is interrupted** fails for each interruption that it comes to, and if
it is repeated each time, gives in the end what it gives without them. -/
theorem Interrupted.next (h : source.Interrupted inserted source') :
    Recovers source.next.result source.next.source inserted source' := by
  induction hn : source'.peer.script.length using Nat.strongRecOn
    generalizing source source' inserted with
  | ind n ih =>
    obtain ⟨hbody, hbuffer, hscript⟩ := h
    have hadvance : source'.body.advance source'.buffer = source.body.advance source.buffer := by
      rw [hbody, hbuffer]
    by_cases hwait : (source.body.advance source.buffer).outcome = .wait
    case neg =>
      have hnext := next_of_outcome (hadvance ▸ hwait)
      rw [hadvance] at hnext
      rw [next_of_outcome hwait]
      refine .here (by rw [hnext]) ?_
      rw [hnext]
      exact ⟨rfl, rfl, hscript⟩
    -- both calls wait for octets; either the same comes of their reads, or the inserted failure
    have hwait' := hadvance ▸ hwait
    obtain ⟨hresult, hleft⟩ | ⟨first, others, left, p₁, trace, rfl, hresult, hlt, hleft, hread⟩ :=
      Peer.readFrom_interleaves hscript source.peer source'.peer
    · by_cases hoctets : ∃ octets, (source.peer.read ⟨none, false⟩).result = .ok (.octets octets)
      · -- both calls go on with the same octets
        obtain ⟨octets, hoctets⟩ := hoctets
        have hoctets' := hresult.symm.trans hoctets
        have hlt := Peer.length_read_script_lt hoctets'
        have hlater : Interrupted
            ⟨(source.body.advance source.buffer).body,
              (source.body.advance source.buffer).rest ++ octets,
                (source.peer.read ⟨none, false⟩).peer⟩
            inserted
            ⟨(source.body.advance source.buffer).body,
              (source.body.advance source.buffer).rest ++ octets,
                (source'.peer.read ⟨none, false⟩).peer⟩ := ⟨rfl, rfl, hleft⟩
        have hnext := next_of_octets hwait' hoctets'
        rw [hadvance] at hnext
        rw [next_of_octets hwait hoctets]
        refine (ih _ (hn ▸ hlt) hlater rfl).congr ?_ ?_
        · rw [hnext]
          rfl
        · rw [hnext]
          rfl
      · have hnone := not_exists.1 hoctets
        have hnext := next_of_noOctets hwait' (hresult ▸ hnone)
        rw [hadvance] at hnext
        rw [next_of_noOctets hwait hnone]
        refine .here (by rw [hnext]; exact congrArg unread hresult.symm) ?_
        rw [hnext]
        exact ⟨rfl, rfl, hleft⟩
    · -- the call fails, and the next one goes on where the read without the interruption does
      have hnone : ∀ octets, (source'.peer.read ⟨none, false⟩).result ≠ .ok (.octets octets) := by
        intro octets hoctets
        cases first <;> cases hresult.symm.trans hoctets
      have hnext := next_of_noOctets hwait' hnone
      have hread' : source.peer.read ⟨none, false⟩ =
          (({ p₁ with script := left } : Peer).read ⟨none, false⟩).after trace :=
        hread.trans (congrArg (Reading.after · trace) (Peer.readFrom_script _ _ _ _).symm)
      obtain ⟨hcall, hsource⟩ := next_of_read_after hwait hread'
      rw [hcall, hsource]
      rw [hadvance] at hnext
      refine .again ?_ ?_
      · rw [hnext, Peer.read, hresult]
        cases first with
        | endOfInput | failure => rfl
      · rw [hnext]
        exact ih _ (hn ▸ hlt) ⟨rfl, rfl, hleft⟩ rfl

/-- What is lost of the interruptions by one recovery. -/
theorem Recovers.calls {result : Chunk} {next : Source}
    (h : Recovers result next inserted source') :
    ∃ k, (source'.calls (k + 1)).map Call.result =
        (inserted.take k).map (fun i => .failed i.error) ++ [result] ∧
      next.Interrupted (inserted.drop k) (source'.after (k + 1)) := by
  induction h with
  | here hresult hnext => exact ⟨0, congrArg ([·]) hresult, hnext⟩
  | again hresult _ ih =>
    obtain ⟨k, hcalls, hnext⟩ := ih
    refine ⟨k + 1, ?_, hnext⟩
    rw [Source.calls, List.map_cons, hresult, hcalls]
    rfl

/-- Calls can be made in two goes. -/
theorem calls_add (source : Source) (m n : Nat) :
    source.calls (m + n) = source.calls m ++ (source.after m).calls n := by
  induction m generalizing source with
  | zero => rw [Nat.zero_add]; rfl
  | succ m ih =>
    rw [Nat.succ_add, calls, ih]
    rfl

theorem after_add (source : Source) (m n : Nat) :
    source.after (m + n) = (source.after m).after n := by
  induction m generalizing source with
  | zero => rw [Nat.zero_add]; rfl
  | succ m ih =>
    rw [Nat.succ_add]
    exact ih source.next.source

/-- **All calls of a reader that is interrupted.** -/
theorem Interrupted.calls (h : source.Interrupted inserted source') (n : Nat) :
    ∃ k, Interleaves ((source.calls n).map Call.result)
        ((inserted.take k).map fun i => .failed i.error) ((source'.calls (n + k)).map Call.result) ∧
      (source.after n).Interrupted (inserted.drop k) (source'.after (n + k)) := by
  induction n generalizing source source' inserted with
  | zero => exact ⟨0, .nil, h⟩
  | succ n ih =>
    obtain ⟨k, hcalls, hnext⟩ := h.next.calls
    obtain ⟨k', hcalls', hnext'⟩ := ih hnext
    have hsum : n + 1 + (k + k') = k + 1 + (n + k') := by omega
    refine ⟨k + k', ?_, ?_⟩
    · rw [hsum, calls_add source', List.map_append, hcalls, List.take_add, List.map_append,
        List.append_assoc]
      exact (Interleaves.left hcalls').append_right _
    · rw [hsum, after_add source', ← List.drop_drop]
      exact hnext'

/-! ### Refusals -/

/-- After a refusal the same call gives the same refusal, without reading. -/
theorem next_of_refusal {error : BodyError} (h : source.next.result = .failed error)
    (herror : error.isRefusal) :
    source.next.source.next = ⟨.failed error, [], source.next.source⟩ := by
  fun_induction Source.next source with
  | case3 source a after error' houtcome =>
    cases h
    have hagain : (after source.peer a.rest).body.advance (after source.peer a.rest).buffer = a :=
      Body.advance_advance fun octets hchunk =>
        Body.Outcome.noConfusion (houtcome.symm.trans hchunk)
    have hwait : ((after source.peer a.rest).body.advance
        (after source.peer a.rest).buffer).outcome ≠
        .wait := by
      rw [hagain, houtcome]
      exact Body.Outcome.noConfusion
    rw [next_of_outcome hwait, hagain, houtcome]
    rfl
  | case4 source a after houtcome r octets hread ih => exact ih h
  | case5 | case6 =>
    cases h
    cases herror
  | case1 | case2 | case7 => cases h

theorem after_of_refusal {error : BodyError} (h : source.next.result = .failed error)
    (herror : error.isRefusal) (n : Nat) : source.after (n + 1) = source.next.source := by
  induction n generalizing source with
  | zero => rfl
  | succ n ih =>
    have hagain := next_of_refusal h herror
    rw [after, ih (congrArg Call.result hagain), hagain]

/-- **Interruptions and refusals.** Where a peer does what another one does with interruptions in
between, the calls for the chunks of a body give the same, but for one failure for each interruption
that was come to, and leave the same octets at hand; the interruptions that are left are still to
come. And after a call that refuses the body, all calls refuse it for the same reason, read nothing,
and change nothing. -/
theorem calls_of_interruptions (framing : Framing) (limit : Nat) (buffer : Bytes) (peer : Peer) :
    (∀ (inserted : List Interruption) (peer' : Peer),
      Interleaves peer.script (inserted.map Interruption.move) peer'.script → ∀ n, ∃ k,
        Interleaves ((calls n ⟨.ofFraming framing limit, buffer, peer⟩).map Call.result)
          ((inserted.take k).map fun i => .failed i.error)
          ((calls (n + k) ⟨.ofFraming framing limit, buffer, peer'⟩).map Call.result) ∧
        Interrupted (after ⟨.ofFraming framing limit, buffer, peer⟩ n) (inserted.drop k)
          (after ⟨.ofFraming framing limit, buffer, peer'⟩ (n + k))) ∧
    ∀ (n : Nat) (error : BodyError),
      (after ⟨.ofFraming framing limit, buffer, peer⟩ n).next.result = .failed error →
      error.isRefusal → ∀ later,
        (after ⟨.ofFraming framing limit, buffer, peer⟩ (n + 1 + later)) =
          after ⟨.ofFraming framing limit, buffer, peer⟩ (n + 1) ∧
        (after ⟨.ofFraming framing limit, buffer, peer⟩ (n + 1 + later)).next =
          ⟨.failed error, [], after ⟨.ofFraming framing limit, buffer, peer⟩ (n + 1)⟩ := by
  refine ⟨fun inserted peer' hscript => Interrupted.calls ⟨rfl, rfl, hscript⟩, ?_⟩
  generalize (⟨.ofFraming framing limit, buffer, peer⟩ : Source) = source
  intro n error hresult herror later
  have hagain := next_of_refusal hresult herror
  have hafter := after_of_refusal hresult herror
  have hlater : source.after (n + 1 + later) = (source.after n).next.source := by
    rw [Nat.add_assoc, after_add, Nat.add_comm]
    exact hafter later
  have hfirst : source.after (n + 1) = (source.after n).next.source := by
    rw [after_add]
    rfl
  rw [hlater, hfirst, hagain]
  exact ⟨rfl, rfl⟩

/-- A body of two octets, each of which comes after an interruption; and one for which there is no
room. -/
theorem calls_of_interruptions_two :
    let peer : Peer := { script := [.send (Utf8.encode "a"), .send (Utf8.encode "bc")] }
    let peer' : Peer :=
      { script := [.close, .send (Utf8.encode "a"), .fail .timedOut, .send (Utf8.encode "bc")] }
    let inserted : List Interruption := [.endOfInput, .failure .timedOut]
    Interleaves peer.script (inserted.map Interruption.move) peer'.script ∧
      (∃ k, Interleaves [.chunk (Utf8.encode "a"), .chunk (Utf8.encode "b"), .complete]
        ((inserted.take k).map fun i => .failed i.error)
        ((calls (3 + k) ⟨.ofFraming (.length 2) 2, [], peer'⟩).map Call.result)) ∧
      ∀ later, (after ⟨.ofFraming (.length 3) 2, [], peer⟩ (0 + 1 + later)).next.result =
        .failed (.tooLarge 2) := by
  intro peer peer' inserted
  have hscript : Interleaves peer.script (inserted.map Interruption.move) peer'.script :=
    .right (.left (.right (.left .nil)))
  obtain ⟨k, hcalls, -⟩ := (calls_of_interruptions (.length 2) 2 [] peer).1 inserted peer' hscript 3
  have hresults : (calls 3 ⟨.ofFraming (.length 2) 2, [], peer⟩).map Call.result =
      [.chunk (Utf8.encode "a"), .chunk (Utf8.encode "b"), .complete] := by decide +kernel
  rw [hresults] at hcalls
  refine ⟨hscript, ⟨k, hcalls⟩, fun later => ?_⟩
  have hrefused := (calls_of_interruptions (.length 3) 2 [] peer).2 0 (.tooLarge 2)
    (by decide +kernel) rfl later
  rw [hrefused.2]

end Session.Source

end HttpEcho
