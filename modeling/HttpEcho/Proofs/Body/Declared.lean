import HttpEcho.Proofs.Body.Decoding

/-!
# Bodies of known length

A body whose length is declared is delivered as it comes. The parts in which its octets arrive, cut
where the body ends, are its `Bytes.pieces`, and each of them is a chunk: `Session.Source.Awaits`
says how much is still to come, one call hands over the first part that is not empty
(`Session.Source.Awaits.next`), and all calls together give the pieces and leave what is behind
them, by induction on what is still to come (`Session.Source.Awaits.gives` and, where the octets run
out, `Session.Source.Awaits.endsShort`). A body that is declared larger than the limit is not read
at all.
-/

namespace HttpEcho

/-! ### Cutting a stream -/

namespace Bytes

/-- The parts of a stream up to a number of octets, the last one cut there; a part without octets is
none. -/
def pieces : Nat → List Bytes → List Bytes
  | _, [] => []
  | n, part :: parts =>
    if n = 0 then [] else if part = [] then pieces n parts
    else part.take n :: pieces (n - part.length) parts

variable {n : Nat} {part : Bytes} {before parts : List Bytes}

theorem pieces_zero (parts : List Bytes) : pieces 0 parts = [] := by
  cases parts with
  | nil => rfl
  | cons part parts => rw [pieces, if_pos rfl]

theorem pieces_cons (hn : n ≠ 0) (hne : part ≠ []) (parts : List Bytes) :
    pieces n (part :: parts) = part.take n :: pieces (n - part.length) parts := by
  rw [pieces, if_neg hn, if_neg hne]

theorem pieces_nil_cons (n : Nat) (parts : List Bytes) :
    pieces n ([] :: parts) = pieces n parts := by
  rw [pieces, if_pos rfl]
  split
  case isTrue hn => rw [hn, pieces_zero]
  case isFalse => rfl

theorem pieces_of_flatten_eq_nil (h : before.flatten = []) (n : Nat) (parts : List Bytes) :
    pieces n (before ++ parts) = pieces n parts := by
  induction before with
  | nil => rfl
  | cons part before ih =>
    obtain ⟨rfl, hbefore⟩ := List.append_eq_nil_iff.1 (List.flatten_cons ▸ h)
    rw [List.cons_append, pieces_nil_cons, ih hbefore]

theorem pieces_eq_nil (h : parts.flatten = []) (n : Nat) : pieces n parts = [] := by
  have hnil := pieces_of_flatten_eq_nil h n []
  rwa [List.append_nil] at hnil

theorem ne_nil_of_mem_pieces {piece : Bytes} (h : piece ∈ pieces n parts) : piece ≠ [] := by
  fun_induction pieces n parts with
  | case1 | case2 => cases h
  | case3 n parts hn ih => exact ih h
  | case4 n part parts hn hne ih =>
    rcases List.mem_cons.1 h with rfl | h
    · exact fun hnil => (List.take_eq_nil_iff.1 hnil).elim hn hne
    · exact ih h

/-- The pieces are the stream up to where it is cut. -/
theorem flatten_pieces (n : Nat) (parts : List Bytes) :
    (pieces n parts).flatten = parts.flatten.take n := by
  fun_induction pieces n parts with
  | case1 => exact List.take_nil.symm
  | case2 => rfl
  | case3 n parts hn ih => exact ih
  | case4 n part parts hn hne ih => rw [List.flatten_cons, List.flatten_cons, List.take_append, ih]

/-- The parts of a stream that is not cut are its pieces. -/
theorem pieces_of_length_le (h : parts.flatten.length ≤ n) :
    pieces n parts = parts.filter (· ≠ []) := by
  fun_induction pieces n parts with
  | case1 => rfl
  | case2 part parts =>
    have hnil : (part :: parts).flatten = [] := List.length_eq_zero_iff.1 (Nat.le_zero.1 h)
    refine (List.filter_eq_nil_iff.2 fun piece hmem => ?_).symm
    rw [List.flatten_eq_nil_iff.1 hnil piece hmem]
    decide
  | case3 n parts hn ih =>
    rw [ih h, List.filter_cons_of_neg (by decide)]
  | case4 n part parts hn hne ih =>
    rw [List.flatten_cons, List.length_append] at h
    rw [ih (by omega), List.take_of_length_le (by omega), List.filter_cons_of_pos]
    exact decide_eq_true hne

end Bytes

/-! ### One look -/

namespace Body

variable {body : Body} {buffer : Bytes} {remaining : Nat}

/-- What is at hand of a body of known length is delivered, up to the end of the body. -/
theorem step_length (hphase : body.phase = .length remaining)
    (hroom : body.received + remaining ≤ body.limit) (hne : buffer ≠ []) :
    body.step buffer = .chunk (buffer.take remaining)
      { body with
        phase := if remaining ≤ buffer.length then .done else .length (remaining - buffer.length)
        received := body.received + min remaining buffer.length } (buffer.drop remaining) := by
  rw [step, hphase]
  dsimp only
  rw [if_neg (Nat.not_lt.2 hroom), if_neg (mt List.isEmpty_iff.1 hne)]
  rcases Nat.le_total remaining buffer.length with hle | hle
  · rw [Nat.min_eq_left hle, if_pos rfl, if_pos hle]
  · rw [Nat.min_eq_right hle, List.take_length, List.drop_length, List.take_of_length_le hle,
      List.drop_of_length_le hle]
    by_cases heq : remaining = buffer.length
    · rw [if_pos heq, if_pos (Nat.le_of_eq heq)]
    · rw [if_neg heq, if_neg (by omega)]

theorem step_length_nil (hphase : body.phase = .length remaining)
    (hroom : body.received + remaining ≤ body.limit) : body.step [] = .wait := by
  rw [step, hphase]
  dsimp only
  rw [if_neg (Nat.not_lt.2 hroom)]
  rfl

theorem step_length_of_lt (hphase : body.phase = .length remaining)
    (hlt : body.limit < body.received + remaining) (buffer : Bytes) :
    body.step buffer = .refuse (.tooLarge body.limit) := by
  rw [step, hphase]
  exact if_pos hlt

/-- A body of known length for the rest of which there is room. -/
inductive Fits (body : Body) : Prop
  | done : body.phase = .done → Fits body
  | length {remaining : Nat} : body.phase = .length remaining →
      body.received + remaining ≤ body.limit → Fits body

theorem fits_ofFraming_length {n limit : Nat} (h : n ≤ limit) :
    (ofFraming (.length n) limit).Fits :=
  .length rfl (Nat.le_trans (Nat.le_of_eq (Nat.zero_add n)) h)

/-- A body for which there is room is not refused. -/
theorem Fits.advance (h : body.Fits) (buffer : Bytes) :
    (body.advance buffer).body.Fits ∧ ∀ error, (body.advance buffer).outcome ≠ .refused error := by
  cases h with
  | done hphase =>
    have hstep : body.step buffer = .done := by rw [step, hphase]
    rw [advance_of_done hstep]
    exact ⟨.done hphase, fun _ => Outcome.noConfusion⟩
  | @length remaining hphase hroom =>
    by_cases hnil : buffer = []
    · subst hnil
      rw [advance_of_wait (step_length_nil hphase hroom)]
      exact ⟨.length hphase hroom, fun _ => Outcome.noConfusion⟩
    rw [advance_of_chunk (step_length hphase hroom hnil)]
    refine ⟨?_, fun _ => Outcome.noConfusion⟩
    by_cases hle : remaining ≤ buffer.length
    · exact .done (if_pos hle)
    · refine .length (if_neg hle) ?_
      dsimp only
      omega

end Body

/-! ### Calls -/

namespace Session.Source

/-- A body of known length, of which octets are still to come and for all of which there is room,
and a peer that sends parts before it makes other moves. -/
structure Awaits (source : Source) (remaining : Nat) (parts : List Bytes) (more : List Move) :
    Prop where
  phase_eq : source.body.phase = .length remaining
  pos : 0 < remaining
  room : source.body.received + remaining ≤ source.body.limit
  script_eq : source.peer.script = parts.map .send ++ more

variable {source : Source} {buffer : Bytes} {remaining : Nat} {parts : List Bytes}
    {more : List Move}

/-- A call with octets at hand delivers them, up to the end of the body. -/
theorem Awaits.next_of_ne_nil (h : source.Awaits remaining parts more) (hne : source.buffer ≠ []) :
    source.next.result = .chunk (source.buffer.take remaining) ∧
    source.next.source.buffer = source.buffer.drop remaining ∧
    source.next.source.peer.script = parts.map .send ++ more ∧
    (remaining ≤ source.buffer.length → source.next.source.body.phase = .done) ∧
    (source.buffer.length < remaining →
      source.next.source.Awaits (remaining - source.buffer.length) parts more) := by
  have hadvance := Body.advance_of_chunk (Body.step_length h.phase_eq h.room hne)
  have hwait : (source.body.advance source.buffer).outcome ≠ .wait := by
    rw [hadvance]
    intro heq
    cases heq
  rw [next_of_outcome hwait, hadvance]
  refine ⟨rfl, rfl, h.script_eq, fun hle => if_pos hle, fun hlt => ⟨?_, ?_, ?_, h.script_eq⟩⟩
  · exact if_neg (Nat.not_le.2 hlt)
  · omega
  · have := h.room
    dsimp only
    omega

/-- A call with nothing at hand goes on with the first part that is not empty, or finds that none is
to come. -/
theorem Awaits.next_of_nil (h : source.Awaits remaining parts more) (hnil : source.buffer = []) :
    (∃ (before : List Bytes) (part : Bytes) (after : List Bytes) (source' : Source) (trace : Trace),
      parts = before ++ part :: after ∧ before.flatten = [] ∧ part ≠ [] ∧
        source.next = source'.next.after trace ∧ source'.buffer = part ∧
          source'.Awaits remaining after more) ∨
    parts.flatten = [] ∧
      (more = [] ∨ more.head? = some .close → source.next.result = .failed .unexpectedEof) := by
  have hwait : (source.body.advance source.buffer).outcome = .wait ∧
      (source.body.advance source.buffer).body = source.body ∧
        (source.body.advance source.buffer).rest = [] := by
    rw [hnil, Body.advance_of_wait (Body.step_length_nil h.phase_eq h.room)]
    exact ⟨rfl, rfl, rfl⟩
  obtain ⟨houtcome, hbody, hrest⟩ := hwait
  have hread : source.peer.read ⟨none, false⟩ =
      Peer.readFrom ⟨none, false⟩ (parts.map .send ++ more) source.peer := by
    rw [Peer.read, h.script_eq]
  obtain ⟨before, part, after, hparts, hbefore, hne, hresult, hscript⟩ |
      ⟨hflatten, p', trace, hread'⟩ :=
    Peer.readFrom_sends ⟨none, false⟩ parts more source.peer
  · rw [← hread] at hresult hscript
    refine .inl ⟨before, part, after, _, _, hparts, hbefore, hne,
      next_of_octets houtcome hresult, ?_, ?_⟩
    · rw [hrest, List.nil_append]
    · rw [hbody]
      exact ⟨h.phase_eq, h.pos, h.room, hscript⟩
  · refine .inr ⟨hflatten, fun hmore => next_of_endOfInput houtcome ?_⟩
    rw [hread, hread', Reading.after]
    rcases more with _ | ⟨move, more⟩
    · rfl
    · obtain hmore | hmore := hmore
      · cases hmore
      · obtain rfl := Option.some.inj hmore
        rfl

/-- **A call delivers the first octets that are there**, up to the end of the body; if there are
none and none will come, it reports that the body is cut short. -/
theorem Awaits.next (h : source.Awaits remaining parts more) :
    (∃ before piece after, source.buffer :: parts = before ++ piece :: after ∧
      before.flatten = [] ∧ piece ≠ [] ∧ after <:+ parts ∧
      source.next.result = .chunk (piece.take remaining) ∧
      source.next.source.buffer = piece.drop remaining ∧
      source.next.source.peer.script = after.map .send ++ more ∧
      (remaining ≤ piece.length → source.next.source.body.phase = .done) ∧
      (piece.length < remaining →
        source.next.source.Awaits (remaining - piece.length) after more)) ∨
    (source.buffer :: parts).flatten = [] ∧
      (more = [] ∨ more.head? = some .close → source.next.result = .failed .unexpectedEof) := by
  by_cases hnil : source.buffer = []
  · obtain ⟨before, piece, after, source', trace, rfl, hbefore, hne, hnext, rfl, hawaits⟩ |
      ⟨hflatten, hend⟩ := h.next_of_nil hnil
    · rw [hnext, hnil]
      refine .inl ⟨[] :: before, source'.buffer, after, rfl, hbefore, hne, ?_,
        hawaits.next_of_ne_nil hne⟩
      exact (List.suffix_cons _ _).trans (List.suffix_append _ _)
    · rw [hnil]
      exact .inr ⟨hflatten, hend⟩
  · exact .inl ⟨[], source.buffer, parts, rfl, rfl, hnil, List.suffix_rfl, h.next_of_ne_nil hnil⟩

/-- Where a body is complete, calls say so and change nothing. -/
theorem after_of_done (h : source.body.phase = .done) (calls : Nat) :
    source.after calls = source ∧ source.next.result = .complete := by
  have hstep : source.body.step source.buffer = .done := by
    rw [Body.step, h]
  have hadvance := Body.advance_of_done hstep
  have hwait : (source.body.advance source.buffer).outcome ≠ .wait := by
    rw [hadvance]
    intro heq
    cases heq
  have hnext := next_of_outcome hwait
  rw [hadvance] at hnext
  refine ⟨?_, congrArg Call.result hnext⟩
  induction calls with
  | zero => rfl
  | succ calls ih => rw [after, hnext, ih]

/-- **A body whose octets are all there or arrive** is delivered in the pieces in which they come,
and what is behind it is left. -/
theorem Awaits.gives (h : source.Awaits remaining parts more)
    (hlen : remaining ≤ (source.buffer :: parts).flatten.length) :
    source.Gives (Bytes.pieces remaining (source.buffer :: parts)) .complete ∧
      ∀ calls, (Bytes.pieces remaining (source.buffer :: parts)).length ≤ calls →
        ∃ parts', parts' <:+ parts ∧ (source.after calls).peer.script = parts'.map .send ++ more ∧
          (source.after calls).buffer ++ parts'.flatten =
            (source.buffer :: parts).flatten.drop remaining := by
  induction remaining using Nat.strongRecOn generalizing source parts with
  | ind remaining ih =>
    have hpos := h.pos
    obtain ⟨before, piece, after, hparts, hbefore, hne, hsuffix, hresult, hbuffer, hscript, hdone,
      hawaits⟩ | ⟨hflatten, -⟩ := h.next
    · have hlength := List.length_pos_iff.2 hne
      rw [hparts, Bytes.pieces_of_flatten_eq_nil hbefore, Bytes.pieces_cons (by omega) hne]
      rw [hparts] at hlen
      simp only [List.flatten_append, List.flatten_cons, hbefore, List.nil_append] at hlen ⊢
      rcases Nat.lt_or_ge piece.length remaining with hlt | hle
      · -- all of the piece belongs to the body
        have hnext := hawaits hlt
        have hrest : source.next.source.buffer = [] := by
          rw [hbuffer, List.drop_of_length_le (Nat.le_of_lt hlt)]
        have hcalls := ih (remaining - piece.length) (by omega) hnext
        rw [hrest, Bytes.pieces_nil_cons, List.flatten_cons, List.nil_append] at hcalls
        rw [List.length_append] at hlen
        obtain ⟨hgives, hafter⟩ := hcalls (by omega)
        refine ⟨hgives.cons hresult, fun calls hle => ?_⟩
        rw [List.length_cons] at hle
        cases calls with
        | zero => omega
        | succ calls =>
          obtain ⟨parts', hsuffix', hscript', hleft⟩ := hafter calls (by omega)
          refine ⟨parts', hsuffix'.trans hsuffix, hscript', ?_⟩
          rw [List.drop_append, List.drop_of_length_le (Nat.le_of_lt hlt), List.nil_append]
          exact hleft
      · -- the piece holds the end of the body
        rw [Nat.sub_eq_zero_of_le hle, Bytes.pieces_zero]
        have hstay := after_of_done (hdone hle)
        refine ⟨Gives.cons hresult fun calls => ?_, fun calls hle' => ?_⟩
        · rw [(hstay calls).1]
          exact (hstay calls).2
        · cases calls with
          | zero => cases hle'
          | succ calls =>
            refine ⟨after, hsuffix, ?_, ?_⟩
            · rw [Source.after, (hstay calls).1]
              exact hscript
            · rw [Source.after, (hstay calls).1, hbuffer, List.drop_append_of_le_length hle]
    · rw [hflatten, List.length_nil] at hlen
      omega

/-- **A body whose octets run out** is delivered as far as it goes, and then reported as cut
short. -/
theorem Awaits.endsShort (h : source.Awaits remaining parts more)
    (hlen : (source.buffer :: parts).flatten.length < remaining)
    (hmore : more = [] ∨ more.head? = some .close) {calls : Nat}
    (hcalls : calls ≤ (Bytes.pieces remaining (source.buffer :: parts)).length) :
    (source.after calls).next.result =
      ((Bytes.pieces remaining (source.buffer :: parts)).map .chunk)[calls]?.getD
        (.failed .unexpectedEof) := by
  induction calls generalizing source remaining parts with
  | zero =>
    have hpos := h.pos
    obtain ⟨before, piece, after, hparts, hbefore, hne, -, hresult, -⟩ | ⟨hflatten, hend⟩ := h.next
    · rw [hparts, Bytes.pieces_of_flatten_eq_nil hbefore, Bytes.pieces_cons (by omega) hne]
      exact hresult
    · rw [Bytes.pieces_eq_nil hflatten]
      exact hend hmore
  | succ calls ih =>
    have hpos := h.pos
    obtain ⟨before, piece, after, hparts, hbefore, hne, -, -, hbuffer, -, -, hawaits⟩ |
        ⟨hflatten, -⟩ := h.next
    · rw [hparts, Bytes.pieces_of_flatten_eq_nil hbefore,
        Bytes.pieces_cons (by omega) hne] at hcalls ⊢
      rw [hparts, List.flatten_append, hbefore, List.nil_append, List.flatten_cons,
        List.length_append] at hlen
      have hrest : source.next.source.buffer = [] := by
        rw [hbuffer, List.drop_of_length_le (by omega)]
      have hnext := ih (hawaits (by omega))
      rw [hrest, Bytes.pieces_nil_cons, List.flatten_cons, List.nil_append] at hnext
      exact hnext (by omega) (Nat.le_of_succ_le_succ hcalls)
    · rw [Bytes.pieces_eq_nil hflatten] at hcalls
      cases hcalls

/-- No call refuses a body for which there is room. -/
theorem fits_next (h : source.body.Fits) : source.next.source.body.Fits ∧
    ∀ error, source.next.result = .failed error → ¬ error.isRefusal := by
  fun_induction Source.next source with
  | case1 source | case2 source | case7 source =>
    exact ⟨(h.advance source.buffer).1, fun _ => Chunk.noConfusion⟩
  | case3 source a after error houtcome => exact absurd houtcome ((h.advance source.buffer).2 error)
  | case4 source a after houtcome r octets hread ih => exact ih (h.advance source.buffer).1
  | case5 source | case6 source =>
    refine ⟨(h.advance source.buffer).1, ?_⟩
    rintro error ⟨⟩
    exact Bool.false_ne_true

/-- A body for which there is no room is refused by every call, which reads and takes nothing. -/
theorem next_of_lt (hphase : source.body.phase = .length remaining)
    (hlt : source.body.limit < source.body.received + remaining) (calls : Nat) :
    source.after calls = source ∧
      source.next = ⟨.failed (.tooLarge source.body.limit), [], source⟩ := by
  have hadvance := Body.advance_of_refuse (Body.step_length_of_lt hphase hlt source.buffer)
  have hnext : source.next = ⟨.failed (.tooLarge source.body.limit), [], source⟩ := by
    rw [Source.next, hadvance]
  refine ⟨?_, hnext⟩
  induction calls with
  | zero => rfl
  | succ calls ih => rw [after, hnext, ih]

/-- **Bodies of known length are delivered exactly**, whatever is at hand and however the rest
arrives. Beyond the limit every call refuses the body, reads nothing and takes nothing. Within it,
if the octets are all there or arrive, the calls give the pieces in which they do, and then for ever
the end of the body, and exactly what is behind the body is left, at hand or to be read. If the
octets run out first, the calls give all of them as they came, and then report that the body is cut
short. -/
theorem gives_of_length {n : Nat} (hn : 0 < n) (limit : Nat) (peer : Peer) (buffer : Bytes) :
    (limit < n → ∀ calls,
      ((⟨.ofFraming (.length n) limit, buffer, peer⟩ : Source).after calls).next =
        ⟨.failed (.tooLarge limit), [], ⟨.ofFraming (.length n) limit, buffer, peer⟩⟩) ∧
    (n ≤ limit → ∀ (parts : List Bytes) (more : List Move),
      peer.script = parts.map .send ++ more →
      let source : Source := ⟨.ofFraming (.length n) limit, buffer, peer⟩
      let chunks := Bytes.pieces n (buffer :: parts)
      (∀ chunk ∈ chunks, chunk ≠ []) ∧ chunks.flatten = (buffer ++ parts.flatten).take n ∧
      (n ≤ (buffer ++ parts.flatten).length →
        source.Gives chunks .complete ∧
        ∀ calls, chunks.length ≤ calls → ∃ parts', parts' <:+ parts ∧
          (source.after calls).peer.script = parts'.map .send ++ more ∧
          (source.after calls).buffer ++ parts'.flatten = (buffer ++ parts.flatten).drop n) ∧
      ((buffer ++ parts.flatten).length < n → more = [] ∨ more.head? = some .close →
        chunks = (buffer :: parts).filter (· ≠ []) ∧
        ∀ calls ≤ chunks.length, (source.after calls).next.result =
          (chunks.map .chunk)[calls]?.getD (.failed .unexpectedEof))) := by
  constructor
  · intro hlt calls
    obtain ⟨hafter, hnext⟩ := @next_of_lt ⟨.ofFraming (.length n) limit, buffer, peer⟩ n rfl
      (Nat.lt_of_lt_of_eq hlt (Nat.zero_add n).symm) calls
    rw [hafter, hnext]
    rfl
  · intro hle parts more hscript source chunks
    have hawaits : source.Awaits n parts more :=
      ⟨rfl, hn, Nat.le_trans (Nat.le_of_eq (Nat.zero_add n)) hle, hscript⟩
    refine ⟨fun chunk => Bytes.ne_nil_of_mem_pieces, Bytes.flatten_pieces n _, hawaits.gives, ?_⟩
    intro hlt hmore
    exact ⟨Bytes.pieces_of_length_le (Nat.le_of_lt hlt), fun calls => hawaits.endsShort hlt hmore⟩

/-- A body of three octets of which one is at hand: within the limit with the beginning of a request
behind it, within the limit with an octet missing, and beyond the limit. -/
theorem gives_of_length_three :
    let whole : Source := ⟨.ofFraming (.length 3) 3, Utf8.encode "a",
      { script := [.send (Utf8.encode "bcGET")] }⟩
    let short : Source := ⟨.ofFraming (.length 3) 3, Utf8.encode "a",
      { script := [.send (Utf8.encode "b"), .close] }⟩
    let large : Source := ⟨.ofFraming (.length 3) 2, Utf8.encode "a", { script := [] }⟩
    (whole.Gives [Utf8.encode "a", Utf8.encode "bc"] .complete ∧
      ∃ parts : List Bytes, parts <:+ [Utf8.encode "bcGET"] ∧
        (whole.after 2).peer.script = parts.map .send ++ [] ∧
          (whole.after 2).buffer ++ parts.flatten = Utf8.encode "GET") ∧
    (short.after 2).next.result = .failed .unexpectedEof ∧
    (large.after 1).next = ⟨.failed (.tooLarge 2), [], large⟩ := by
  refine ⟨?_, ?_, ?_⟩
  · obtain ⟨-, -, hgives, -⟩ := (gives_of_length (by decide : 0 < 3) 3
      { script := [.send (Utf8.encode "bcGET")] } (Utf8.encode "a")).2 (by decide)
      [Utf8.encode "bcGET"] [] rfl
    obtain ⟨hgives, hafter⟩ := hgives (by decide)
    exact ⟨hgives, hafter 2 (by decide)⟩
  · obtain ⟨-, -, -, hshort⟩ := (gives_of_length (by decide : 0 < 3) 3
      { script := [.send (Utf8.encode "b"), .close] } (Utf8.encode "a")).2 (by decide)
      [Utf8.encode "b"] [.close] rfl
    exact (hshort (by decide) (.inr rfl)).2 2 (by decide)
  · exact (gives_of_length (by decide : 0 < 3) 2 { script := [] } (Utf8.encode "a")).1 (by decide) 1

end Session.Source

end HttpEcho
