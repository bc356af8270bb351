import HttpEcho.Proofs.Body.Bounds
import HttpEcho.Proofs.Body.Interruptions
import HttpEcho.Proofs.Head.Framing

/-!
# Reading bodies in 64 bits

A reader of bodies counts in words of 64 bits and cuts its buffer at places that it has computed.
Here it is written out with each sum, difference and cut checked: `none` stands for a number that is
not a word, for a place outside the buffer, or for a look that would pass over octets for ever.

`Session.Source.checkedCalls?_eq` says that none of this happens. What carries it is
`Body.Sound`: the body is within its limit, what has been received of a body of known length and
what remains of it is a word, and no chunk that is waited for is empty. As long as the limit leaves
room for a line end behind a chunk, each operation stays in its range, whatever the peer sends and
however often the reader is called.
-/

namespace HttpEcho

/-! ### Checked operations -/

namespace Word

/-- A sum that is a word. -/
def add? (m n : Nat) : Option Nat := if m + n < Text.wordSize then some (m + n) else none

/-- A difference that is a word. -/
def sub? (m n : Nat) : Option Nat := if n ≤ m then some (m - n) else none

/-- The sum, or the largest word if the sum is none. -/
def saturatingAdd (m n : Nat) : Nat := min (m + n) (Text.wordSize - 1)

theorem add?_of_lt {m n : Nat} (h : m + n < Text.wordSize) : add? m n = some (m + n) := if_pos h

theorem sub?_of_le {m n : Nat} (h : n ≤ m) : sub? m n = some (m - n) := if_pos h

/-- A limit below the largest word is exceeded by the largest word as it is by the sum. -/
theorem lt_saturatingAdd_iff {limit m n : Nat} (h : limit + 1 < Text.wordSize) :
    limit < saturatingAdd m n ↔ limit < m + n := by
  rw [saturatingAdd]
  omega

end Word

namespace Bytes

/-- The octets between two places in the buffer. -/
def slice? (start stop : Nat) (buffer : Bytes) : Option Bytes :=
  if start ≤ stop ∧ stop ≤ buffer.length then some ((buffer.take stop).drop start) else none

/-- The octets before and after a place in the buffer. -/
def cut? (n : Nat) (buffer : Bytes) : Option (Bytes × Bytes) :=
  if n ≤ buffer.length then some (buffer.take n, buffer.drop n) else none

theorem slice?_of_le {start stop : Nat} {buffer : Bytes} (h : start ≤ stop)
    (h' : stop ≤ buffer.length) :
    slice? start stop buffer = some ((buffer.take stop).drop start) := if_pos ⟨h, h'⟩

theorem cut?_of_le {n : Nat} {buffer : Bytes} (h : n ≤ buffer.length) :
    cut? n buffer = some (buffer.take n, buffer.drop n) := if_pos h

end Bytes

/-! ### The checked reader -/

/-- The text of a size line in front of the extension, if there is one. -/
def SizeLine.checkedText? (line : Bytes) : Option Bytes :=
  match line.findIdx? (· = 0x3B) with
  | some semicolon => Bytes.slice? 0 semicolon line
  | none => some line

/-- Read a size line with its slices and its number checked. -/
def SizeLine.checkedParse? (buffer : Bytes) : Option (Except BodyError (Option SizeLine)) :=
  match Bytes.findCrlf? buffer with
  | none => some (.ok none)
  | some stop => do
    let line ← Bytes.slice? 0 stop buffer
    let text ← checkedText? line
    match (size? text).filter (· < Text.wordSize) with
    | none => some (.error (.malformed (.invalidChunk s!"invalid chunk size: {Utf8.lossy text}")))
    | some size => some (.ok (some { size, width := stop + 2 }))

namespace Body

/-- Look at the octets at hand with each operation checked. -/
def checkedStep? (body : Body) (buffer : Bytes) : Option Step :=
  match body.phase with
  | .done => some .done
  | .length remaining => do
    let total ← Word.add? body.received remaining
    if body.limit < total then some (.refuse (.tooLarge body.limit))
    else if buffer.isEmpty then some .wait
    else
      let n := min remaining buffer.length
      let (octets, rest) ← Bytes.cut? n buffer
      let left ← Word.sub? remaining n
      let received ← Word.add? body.received n
      let phase := if left = 0 then .done else .length left
      some (.chunk octets { body with phase, received } rest)
  | .sizeLine => do
    match ← SizeLine.checkedParse? buffer with
    | .error e => some (.refuse e)
    | .ok none => some (waitForLine buffer "chunk size line too long")
    | .ok (some line) =>
      if line.size = 0 then
        let (_, rest) ← Bytes.cut? line.width buffer
        some (.skip { body with phase := .trailers } rest)
      else if body.limit < Word.saturatingAdd body.received line.size then
        some (.refuse (.tooLarge body.limit))
      else
        let (_, rest) ← Bytes.cut? line.width buffer
        some (.skip { body with phase := .data line.size } rest)
  | .data size => do
    let stop ← Word.add? size 2
    if buffer.length < stop then some .wait
    else
      let ending ← Bytes.slice? size stop buffer
      if ending = Bytes.crlf then
        let (octets, rest) ← Bytes.cut? size buffer
        let (_, rest) ← Bytes.cut? 2 rest
        let received ← Word.add? body.received size
        some (.chunk octets { body with phase := .sizeLine, received } rest)
      else some (.refuse (.malformed (.invalidChunk "missing CRLF after chunk data")))
  | .trailers =>
    match Bytes.findCrlf? buffer with
    | none => some (waitForLine buffer "trailer line too long")
    | some 0 => do
      let (_, rest) ← Bytes.cut? 2 buffer
      some (.skip { body with phase := .done } rest)
    | some stop => do
      let (_, rest) ← Bytes.cut? (stop + 2) buffer
      some (.skip body rest)

/-- Read on with each look checked. -/
def checkedAdvance? (body : Body) (buffer : Bytes) : Option Advance :=
  match body.checkedStep? buffer with
  | none => none
  | some (.skip next rest) =>
    if _h : rest.length < buffer.length then checkedAdvance? next rest else none
  | some (.chunk octets next rest) => some ⟨.chunk octets, next, rest⟩
  | some .wait => some ⟨.wait, body, buffer⟩
  | some .done => some ⟨.complete, body, buffer⟩
  | some (.refuse error) => some ⟨.refused error, body, buffer⟩
termination_by buffer.length

end Body

namespace Session

open Source in
/-- The next chunk of a body with each look checked. -/
def Source.checkedNext? (source : Source) : Option Call :=
  match source.body.checkedAdvance? source.buffer with
  | none => none
  | some a =>
    if a.outcome = .wait then
      let r := source.peer.read { deadline := none, idle := false }
      match _hr : r.result with
      | .ok (.octets octets) =>
        (checkedNext? ⟨a.body, a.rest ++ octets, r.peer⟩).map (·.after r.trace)
      | result => some ⟨unread result, r.trace, ⟨a.body, a.rest, r.peer⟩⟩
    else some ⟨atEnd a.outcome, [], ⟨a.body, a.rest, source.peer⟩⟩
termination_by source.peer.script.length
decreasing_by exact Peer.length_read_script_lt _hr

/-- A number of checked calls, one after the other. -/
def Source.checkedCalls? : Nat → Source → Option (List Call)
  | 0, _ => some []
  | n + 1, source => do
    let call ← source.checkedNext?
    let calls ← checkedCalls? n call.source
    some (call :: calls)

/-- The octets that calls give, counted one call after the other. -/
def checkedSum? (calls : List Call) : Option Nat :=
  calls.foldlM (fun sum call => Word.add? sum call.octets.length) 0

/-- Whether a call gives a chunk. -/
def Call.givesChunk (c : Call) : Bool :=
  match c.result with
  | .chunk _ => true
  | _ => false

end Session

/-! ### One look -/

/-- The extension is cut off within the line. -/
theorem SizeLine.checkedText?_eq (line : Bytes) :
    checkedText? line = some (line.takeWhile (· ≠ 0x3B)) := by
  have htake : line.takeWhile (· ≠ 0x3B) = line.take (line.findIdx (· = 0x3B)) := by
    rw [List.takeWhile_eq_take_findIdx_not]
    simp
  rw [checkedText?, htake]
  cases hfind : line.findIdx? (· = 0x3B) with
  | none =>
    rw [List.findIdx_eq_length_of_false (List.findIdx?_eq_none_iff.1 hfind), List.take_length]
  | some semicolon =>
    have hindex := List.findIdx?_eq_some_iff_findIdx_eq.1 hfind
    dsimp only
    rw [Bytes.slice?_of_le (Nat.zero_le _) (Nat.le_of_lt hindex.1), List.drop_zero, hindex.2]

/-- A size line is read within the buffer, and its size is a word. -/
theorem SizeLine.checkedParse?_eq (buffer : Bytes) :
    SizeLine.checkedParse? buffer = some (SizeLine.parse buffer) := by
  rw [checkedParse?, parse]
  cases hstop : Bytes.findCrlf? buffer with
  | none => rfl
  | some stop =>
    have hle := Bytes.findCrlf?_le hstop
    have hword : ∀ text, (size? text).filter (· < Text.wordSize) = size? text := by
      intro text
      cases hsize : size? text with
      | none => rfl
      | some size =>
        have hlt := (size?_eq_some_iff.1 hsize).lt_wordSize
        rw [Option.filter_some, if_pos (decide_eq_true hlt)]
    dsimp only
    rw [Bytes.slice?_of_le (Nat.zero_le stop) (by omega), List.drop_zero, Option.bind_eq_bind,
      Option.bind_some, checkedText?_eq, Option.bind_some, hword]
    cases size? ((buffer.take stop).takeWhile (· ≠ 0x3B)) <;> rfl

namespace Body

variable {body next : Body} {buffer rest octets : Bytes}

/-- A body that is read without leaving the words: it is within its limit, a known length is a word
and not yet reached, and a chunk that comes next is not empty. -/
structure Sound (body : Body) : Prop extends Within body where
  limit_lt : body.limit + 2 < Text.wordSize
  length_lt : ∀ remaining, body.phase = .length remaining →
    0 < remaining ∧ body.received + remaining < Text.wordSize
  data_pos : ∀ size, body.phase = .data size → 0 < size

theorem Sound.checkedStep?_eq (h : body.Sound) (buffer : Bytes) :
    body.checkedStep? buffer = some (body.step buffer) := by
  have hlimit := h.limit_lt
  have hreceived := h.received_le
  cases hphase : body.phase with
  | done => rw [checkedStep?, step, hphase]
  | length remaining =>
    have hword := (h.length_lt remaining hphase).2
    -- what is received by the end is a word, and no sum on the way is greater
    have hmin : min remaining buffer.length ≤ remaining := Nat.min_le_left _ _
    rw [checkedStep?, step, hphase]
    dsimp only
    rw [Word.add?_of_lt hword, Option.bind_eq_bind, Option.bind_some]
    split
    · rfl
    split
    · rfl
    have hiff : remaining - min remaining buffer.length = 0 ↔
        remaining = min remaining buffer.length := by omega
    simp only [Bytes.cut?_of_le (Nat.min_le_right remaining buffer.length), Word.sub?_of_le hmin,
      Word.add?_of_lt (Nat.lt_of_le_of_lt (Nat.add_le_add_left hmin _) hword),
      Option.bind_eq_bind, Option.bind_some, hiff]
  | sizeLine =>
    rw [checkedStep?, step, hphase]
    dsimp only
    rw [SizeLine.checkedParse?_eq, Option.bind_eq_bind, Option.bind_some]
    cases hparse : SizeLine.parse buffer with
    | error e => rfl
    | ok line? =>
      cases line? with
      | none => rfl
      | some line =>
        have hcut := Bytes.cut?_of_le (SizeLine.parse_width hparse).2
        simp only [hcut, Option.bind_eq_bind, Option.bind_some,
          Word.lt_saturatingAdd_iff (Nat.lt_of_succ_lt hlimit)]
        split
        · rfl
        split <;> rfl
  | data size =>
    have hsize := h.data_le size hphase
    rw [checkedStep?, step, hphase]
    dsimp only
    rw [Word.add?_of_lt (by omega), Option.bind_eq_bind, Option.bind_some]
    split
    · rfl
    rename_i hlength
    -- past this check the chunk and its line end are in the buffer
    have hslice : Bytes.slice? size (size + 2) buffer = some ((buffer.drop size).take 2) := by
      rw [Bytes.slice?_of_le (by omega) (by omega), List.drop_take, Nat.add_sub_cancel_left]
    have hcut : Bytes.cut? 2 (buffer.drop size) =
        some ((buffer.drop size).take 2, buffer.drop (size + 2)) := by
      rw [Bytes.cut?_of_le (by rw [List.length_drop]; omega), List.drop_drop]
    have hadd := Word.add?_of_lt (m := body.received) (n := size) (by omega)
    simp only [hslice, Bytes.cut?_of_le (by omega : size ≤ buffer.length), hcut, hadd,
      Option.bind_eq_bind, Option.bind_some]
    split <;> rfl
  | trailers =>
    rw [checkedStep?, step, hphase]
    dsimp only
    cases hstop : Bytes.findCrlf? buffer with
    | none => rfl
    | some stop =>
      have hcut := Bytes.cut?_of_le (Bytes.findCrlf?_le hstop)
      cases stop with
      | zero => simp only [hcut, Option.bind_eq_bind, Option.bind_some]
      | succ stop => simp only [hcut, Option.bind_eq_bind, Option.bind_some]

/-! ### What a look keeps -/

/-- A body that a head announces is sound before anything is read. -/
theorem sound_ofFraming {head : Head} {framing : Framing} {limit : Nat}
    (hframing : head.framing = .ok framing) (hlimit : limit + 3 ≤ Text.wordSize) :
    (ofFraming framing limit).Sound := by
  refine ⟨within_ofFraming framing limit, hlimit, fun remaining hphase => ?_, ?_⟩
  · cases framing with
    | empty | chunked => cases hphase
    | length n =>
      cases hphase
      obtain ⟨-, -, hpos, hword⟩ := (head.framing_iff.2.1 remaining).1 hframing
      exact ⟨hpos, (Nat.zero_add remaining).symm ▸ hword⟩
  · intro size hphase
    cases framing <;> cases hphase

/-- Passing over a line keeps a body sound. -/
theorem Sound.of_skip (h : body.Sound) (hstep : body.step buffer = .skip next rest) :
    next.Sound := by
  have hgoes := h.toWithin.goes_skip hstep
  have hlimit := hgoes.limit_eq ▸ h.limit_lt
  obtain ⟨line, -, -, -, ⟨-, rfl⟩ | ⟨hne, -, rfl⟩⟩ | ⟨stop, -, -, -, rfl⟩ := step_skip_cases hstep
  · exact ⟨hgoes.within, hlimit, nofun, nofun⟩
  · refine ⟨hgoes.within, hlimit, nofun, fun size hphase => ?_⟩
    cases hphase
    exact Nat.pos_of_ne_zero hne
  · refine ⟨hgoes.within, hlimit, fun remaining hphase => ?_, fun size hphase => ?_⟩
    all_goals
      dsimp only at hphase
      split at hphase <;> cases hphase

/-- Delivering a chunk keeps a body sound, and no chunk is empty. -/
theorem Sound.of_chunk (h : body.Sound) (hstep : body.step buffer = .chunk octets next rest) :
    next.Sound ∧ octets ≠ [] := by
  have hgoes := h.toWithin.goes_chunk hstep
  obtain ⟨remaining, hphase, -, hne, rfl, -, rfl⟩ | ⟨size, hphase, hsize, -, rfl, -, rfl⟩ :=
    step_chunk_cases hstep
  · obtain ⟨hpos, hword⟩ := h.length_lt remaining hphase
    have hlength : (buffer.take remaining).length = min remaining buffer.length :=
      List.length_take
    refine ⟨⟨hgoes.within, h.limit_lt, fun remaining' hphase' => ?_, fun size hphase' => ?_⟩, ?_⟩
    · dsimp only at hphase' ⊢
      split at hphase'
      · cases hphase'
      · cases hphase'
        omega
    · dsimp only at hphase'
      split at hphase' <;> cases hphase'
    · exact fun hnil => (List.take_eq_nil_iff.1 hnil).elim (Nat.ne_of_gt hpos) hne
  · refine ⟨⟨hgoes.within, h.limit_lt, nofun, nofun⟩, fun hnil => ?_⟩
    have hpos := h.data_pos size hphase
    have hlength := congrArg List.length hnil
    rw [List.length_take_of_le (by omega), List.length_nil] at hlength
    omega

/-- Reading on leaves a sound body, and gives no empty chunk. -/
theorem Sound.of_advance (h : body.Sound) (buffer : Bytes) :
    (body.advance buffer).body.Sound ∧ (body.advance buffer).outcome ≠ .chunk [] := by
  fun_induction advance body buffer with
  | case1 body buffer octets next rest hstep =>
    obtain ⟨hnext, hne⟩ := h.of_chunk hstep
    refine ⟨hnext, fun hnil => hne ?_⟩
    cases hnil
    rfl
  | case2 body buffer next rest hstep ih => exact ih (h.of_skip hstep)
  | case3 | case4 | case5 =>
    refine ⟨h, fun hchunk => ?_⟩
    cases hchunk

theorem Sound.checkedAdvance?_eq (h : body.Sound) (buffer : Bytes) :
    body.checkedAdvance? buffer = some (body.advance buffer) := by
  fun_induction advance body buffer with
  | case1 body buffer octets next rest hstep =>
    rw [checkedAdvance?, h.checkedStep?_eq, hstep]
  | case2 body buffer next rest hstep ih =>
    rw [checkedAdvance?, h.checkedStep?_eq, hstep]
    dsimp only
    rw [dif_pos (length_of_step_skip hstep), ih (h.of_skip hstep)]
  | case3 body buffer hstep | case4 body buffer hstep | case5 body buffer error hstep =>
    rw [checkedAdvance?, h.checkedStep?_eq, hstep]

end Body

/-! ### All calls -/

namespace Session

variable {source : Source}

/-- A call leaves a sound body, and gives no empty chunk. -/
theorem Source.sound_next (h : source.body.Sound) :
    source.next.source.body.Sound ∧ source.next.result ≠ .chunk [] := by
  fun_induction Source.next source with
  | case1 source a after octets houtcome =>
    obtain ⟨hbody, hne⟩ := h.of_advance source.buffer
    refine ⟨hbody, fun hnil => hne ?_⟩
    cases hnil
    exact houtcome
  | case2 source a after houtcome | case3 source a after error houtcome
  | case5 source a after houtcome r | case6 source a after houtcome r
  | case7 source a after houtcome r =>
    refine ⟨(h.of_advance source.buffer).1, fun hchunk => ?_⟩
    cases hchunk
  | case4 source a after houtcome r octets hread ih => exact ih (h.of_advance source.buffer).1

theorem Source.checkedNext?_eq (h : source.body.Sound) :
    source.checkedNext? = some source.next := by
  fun_induction Source.checkedNext? source with
  | case1 source hnone => cases hnone.symm.trans (h.checkedAdvance?_eq source.buffer)
  | case2 source a ha hwait r octets hread ih =>
    obtain rfl := Option.some.inj (ha.symm.trans (h.checkedAdvance?_eq source.buffer))
    rw [next_of_octets hwait hread, ih (h.of_advance source.buffer).1]
    rfl
  | case3 source a ha hwait r hread =>
    obtain rfl := Option.some.inj (ha.symm.trans (h.checkedAdvance?_eq source.buffer))
    rw [next_of_noOctets hwait hread]
  | case4 source a ha hwait =>
    obtain rfl := Option.some.inj (ha.symm.trans (h.checkedAdvance?_eq source.buffer))
    rw [next_of_outcome hwait]

/-- Any number of calls never leaves the words of 64 bits. -/
theorem Source.checkedCalls?_eq_calls (h : source.body.Sound) (n : Nat) :
    checkedCalls? n source = some (calls n source) := by
  induction n generalizing source with
  | zero => rfl
  | succ n ih =>
    rw [checkedCalls?, checkedNext?_eq h, Option.bind_eq_bind, Option.bind_some,
      ih (sound_next h).1]
    rfl

theorem Source.sound_after (h : source.body.Sound) (n : Nat) : (source.after n).body.Sound := by
  induction n generalizing source with
  | zero => exact h
  | succ n ih => exact ih (sound_next h).1

/-- No call gives an empty chunk. -/
theorem Source.ne_chunk_nil_of_mem_calls (h : source.body.Sound) {n : Nat} {call : Call}
    (hcall : call ∈ source.calls n) : call.result ≠ .chunk [] := by
  induction n generalizing source with
  | zero => cases hcall
  | succ n ih =>
    rcases List.mem_cons.1 hcall with rfl | hcall
    · exact (sound_next h).2
    · exact ih (sound_next h).1 hcall

/-- Calls that give no empty chunk give at least as many octets as chunks. -/
theorem countP_givesChunk_le {calls : List Call} (h : ∀ call ∈ calls, call.result ≠ .chunk []) :
    calls.countP Call.givesChunk ≤ (calls.flatMap Call.octets).length := by
  induction calls with
  | nil => exact Nat.le_refl _
  | cons call calls ih =>
    obtain ⟨hcall, hcalls⟩ := List.forall_mem_cons.1 h
    have hone : (if call.givesChunk then 1 else 0) ≤ call.octets.length := by
      rw [Call.givesChunk, Call.octets]
      cases hresult : call.result with
      | chunk octets =>
        refine List.length_pos_iff.2 fun hnil => hcall ?_
        have hnil : octets = [] := hnil
        rw [hresult, hnil]
      | complete | failed | never => exact Nat.le_refl _
    rw [List.countP_cons, List.flatMap_cons, List.length_append]
    have hrest := ih hcalls
    omega

/-- The octets of calls are counted within the words if their number is a word. -/
theorem checkedSum?_eq {calls : List Call}
    (h : (calls.flatMap Call.octets).length < Text.wordSize) :
    checkedSum? calls = some (calls.flatMap Call.octets).length := by
  have hfold : ∀ sum, sum + (calls.flatMap Call.octets).length < Text.wordSize →
      calls.foldlM (fun sum call => Word.add? sum call.octets.length) sum =
        some (sum + (calls.flatMap Call.octets).length) := by
    clear h
    induction calls with
    | nil => exact fun sum _ => rfl
    | cons call calls ih =>
      intro sum hsum
      rw [List.flatMap_cons, List.length_append, ← Nat.add_assoc] at hsum
      rw [List.foldlM_cons, Word.add?_of_lt (by omega), Option.bind_eq_bind, Option.bind_some,
        ih _ hsum, List.flatMap_cons, List.length_append, Nat.add_assoc]
  rw [checkedSum?, hfold 0 (by omega), Nat.zero_add]

/-- Reading a body to its end is a number of calls. -/
theorem Source.exists_all_eq_calls (source : Source) : ∃ n, source.all = source.calls n := by
  fun_induction Source.all source with
  | case1 source octets hresult ih =>
    obtain ⟨n, hn⟩ := ih
    exact ⟨n + 1, congrArg (source.next :: ·) hn⟩
  | case2 source hresult => exact ⟨1, rfl⟩

/-- **Reading a body stays within the words and the buffer.** For every framing that a head can have
and every limit that leaves room for a line end, any number of calls does what the checked reader
does, whatever is in the buffer and whatever the peer sends. No chunk is empty, so that there are no
more of them than the limit allows octets, and what is dropped can be counted. -/
theorem Source.checkedCalls?_eq {head : Head} {framing : Framing} {limit : Nat}
    (hframing : head.framing = .ok framing) (hlimit : limit + 3 ≤ Text.wordSize) (buffer : Bytes)
    (peer : Peer) (n : Nat) :
    let source : Source := ⟨.ofFraming framing limit, buffer, peer⟩
    checkedCalls? n source = some (calls n source) ∧
      (∀ call ∈ calls n source, call.result ≠ .chunk []) ∧
      (calls n source).countP Call.givesChunk ≤ limit ∧
      checkedSum? (source.after n).all =
        some ((source.after n).all.flatMap Call.octets).length := by
  intro source
  have hsound : source.body.Sound := Body.sound_ofFraming hframing hlimit
  have hchunks : ∀ call ∈ calls n source, call.result ≠ .chunk [] :=
    fun call hcall => ne_chunk_nil_of_mem_calls hsound hcall
  refine ⟨checkedCalls?_eq_calls hsound n, hchunks, ?_, ?_⟩
  · exact Nat.le_trans (countP_givesChunk_le hchunks) (sum_calls_le framing limit buffer peer n)
  · have hafter := sound_after hsound n
    obtain ⟨m, hm⟩ := (source.after n).exists_all_eq_calls
    have hsum := sum_calls_add_le (source.after n) hafter.toWithin m
    have hword := hafter.limit_lt
    rw [← hm] at hsum
    exact checkedSum?_eq (by omega)

/-- A request with a body as long as the largest limit. -/
def longest : Head where
  method := .post
  target := "/"
  version := .http11
  fields := [⟨"Content-Length", Utf8.encode "18446744073709551613"⟩]

/-- The longest body that is within a limit. -/
theorem Source.checkedCalls?_eq_longest :
    longest.framing = .ok (.length 18446744073709551613) ∧
    18446744073709551613 + 3 ≤ Text.wordSize ∧
    let source : Source := ⟨.ofFraming (.length 18446744073709551613) 18446744073709551613,
      [1, 2, 3], { script := [.send [4], .close] }⟩
    checkedCalls? 3 source = some (calls 3 source) ∧
      (∀ call ∈ calls 3 source, call.result ≠ .chunk []) ∧
      (calls 3 source).countP Call.givesChunk ≤ 18446744073709551613 ∧
      checkedSum? (source.after 3).all =
        some ((source.after 3).all.flatMap Call.octets).length := by
  have hframing : longest.framing = .ok (.length 18446744073709551613) := by rfl
  have hlimit : 18446744073709551613 + 3 ≤ Text.wordSize := by decide
  exact ⟨hframing, hlimit, checkedCalls?_eq hframing hlimit _ _ 3⟩

end Session

end HttpEcho
