import HttpEcho.Proofs.Body.Encoding
import HttpEcho.Proofs.Body.Lines
import HttpEcho.Proofs.Peer
import HttpEcho.Session

/-!
# Chunked bodies that arrive in parts

A body that is read from a peer is compared with its whole text. `Session.Source.Reads` says that
the text is at hand or arrives in parts that cut no line; then a call reports what the whole text
leads to, and what is left is read alike (`Session.Source.Reads.next`), by induction on the moves of
the peer. So all calls together give the same however the text arrives
(`Session.Source.Reads.results_eq`), by induction on the chunks of the text. Where a line is cut,
the calls follow the text up to that line and refuse it
(`Session.Source.Holds.results_of_cutsLine`).
-/

namespace HttpEcho

/-! ### Calls -/

namespace Session

namespace Source

/-- What a call gives when no more will arrive. -/
def atEnd : Body.Outcome → Chunk
  | .chunk octets => .chunk octets
  | .complete => .complete
  | .wait => .failed .unexpectedEof
  | .refused error => .failed error

/-- What a call gives when the read that it needs brings no octets. -/
def unread : Except Silence Arrival → Chunk
  | .ok .endOfInput => .failed .unexpectedEof
  | .ok (.failure kind) => .failed (.io kind.fault)
  | .ok (.octets _) | .error _ => .never

/-- A chunked body and its text, of which some is at hand and the peer sends the rest in parts
before it makes other moves. -/
structure Holds (source : Source) (body : Body) (text : Bytes) (parts : List Bytes)
    (more : List Move) : Prop where
  body_eq : source.body = body
  chunked : body.IsChunked
  script_eq : source.peer.script = parts.map .send ++ more
  text_eq : source.buffer ++ parts.flatten = text

/-- The text is at hand, or arrives in parts that cut no line. -/
def Reads (source : Source) (body : Body) (text : Bytes) (more : List Move) : Prop :=
  ∃ parts, source.Holds body text parts more ∧ ¬ body.CutsLine source.buffer parts

variable {source source' : Source} {body : Body} {text : Bytes} {parts : List Bytes}
  {more : List Move}

theorem next_of_outcome (h : (source.body.advance source.buffer).outcome ≠ .wait) :
    source.next = ⟨atEnd (source.body.advance source.buffer).outcome, [],
      ⟨(source.body.advance source.buffer).body, (source.body.advance source.buffer).rest,
        source.peer⟩⟩ := by
  rw [next]
  split
  case h_1 houtcome | h_2 houtcome | h_3 houtcome =>
    rw [houtcome]
    rfl
  case h_4 houtcome => exact absurd houtcome h

theorem next_of_octets {octets : Bytes} (h : (source.body.advance source.buffer).outcome = .wait)
    (hread : (source.peer.read ⟨none, false⟩).result = .ok (.octets octets)) :
    source.next = (next ⟨(source.body.advance source.buffer).body,
      (source.body.advance source.buffer).rest ++ octets,
        (source.peer.read ⟨none, false⟩).peer⟩).after (source.peer.read ⟨none, false⟩).trace := by
  rw [next]
  split
  case h_1 houtcome | h_2 houtcome | h_3 houtcome => cases h.symm.trans houtcome
  case h_4 =>
    dsimp only
    split
    case h_1 octets' hread' =>
      cases hread.symm.trans hread'
      rfl
    case h_2 hread' | h_3 hread' | h_4 hread' => cases hread.symm.trans hread'

theorem next_of_noOctets (h : (source.body.advance source.buffer).outcome = .wait)
    (hread : ∀ octets, (source.peer.read ⟨none, false⟩).result ≠ .ok (.octets octets)) :
    source.next = ⟨unread (source.peer.read ⟨none, false⟩).result,
      (source.peer.read ⟨none, false⟩).trace,
      ⟨(source.body.advance source.buffer).body, (source.body.advance source.buffer).rest,
        (source.peer.read ⟨none, false⟩).peer⟩⟩ := by
  rw [next]
  split
  case h_1 houtcome | h_2 houtcome | h_3 houtcome => cases h.symm.trans houtcome
  case h_4 =>
    dsimp only
    split
    case h_1 octets hoctets => exact absurd hoctets (hread octets)
    case h_2 hresult | h_3 hresult | h_4 hresult =>
      rw [hresult]
      rfl

theorem next_of_endOfInput (h : (source.body.advance source.buffer).outcome = .wait)
    (hread : (source.peer.read ⟨none, false⟩).result = .ok .endOfInput) :
    source.next.result = .failed .unexpectedEof := by
  have hnone : ∀ octets, (source.peer.read ⟨none, false⟩).result ≠ .ok (.octets octets) :=
    fun octets hoctets => nomatch hread.symm.trans hoctets
  rw [next_of_noOctets h hnone, hread]
  rfl

/-- A call that reports something without reading leaves the rest of the text. -/
theorem Holds.next_of_outcome (h : source.Holds body text parts more)
    (hwait : (body.advance source.buffer).outcome ≠ .wait) :
    source.next.result = atEnd (body.advance source.buffer).outcome ∧
      source.next.source.buffer = (body.advance source.buffer).rest ∧
        source.next.source.Holds (body.advance source.buffer).body
          ((body.advance source.buffer).rest ++ parts.flatten) parts more := by
  obtain ⟨rfl, hchunked, hscript, -⟩ := h
  rw [Source.next_of_outcome hwait]
  exact ⟨rfl, rfl, rfl, Body.isChunked_advance hchunked, hscript, rfl⟩

/-- A call that has to read goes on with the first part, or finds that there is none. -/
theorem Holds.next_of_wait (h : source.Holds body text parts more)
    (hwait : (body.advance source.buffer).outcome = .wait) :
    body.advance text = (body.advance source.buffer).body.advance
      ((body.advance source.buffer).rest ++ parts.flatten) ∧
    ((∃ (before : List Bytes) (part : Bytes) (after : List Bytes) (source' : Source)
        (trace : Trace),
        parts = before ++ part :: after ∧ before.flatten = [] ∧
        source.next = source'.next.after trace ∧
          source'.buffer = (body.advance source.buffer).rest ++ part ∧
            source'.peer.script.length < source.peer.script.length ∧
              source'.Holds (body.advance source.buffer).body
                ((body.advance source.buffer).rest ++ parts.flatten) after more) ∨
      parts.flatten = [] ∧ (body.advance text).outcome = .wait ∧
        (more = [] → source.next.result = .failed .unexpectedEof)) := by
  obtain ⟨rfl, hchunked, hscript, rfl⟩ := h
  have hstop : ∀ octets, (source.body.advance source.buffer).outcome ≠ .chunk octets :=
    fun octets hchunk => nomatch hwait.symm.trans hchunk
  refine ⟨Body.advance_append_of_stop hstop _, ?_⟩
  have hread : source.peer.read ⟨none, false⟩ =
      Peer.readFrom ⟨none, false⟩ (parts.map .send ++ more) source.peer := by
    rw [Peer.read, hscript]
  obtain ⟨before, part, after, rfl, hbefore, -, hresult, hscript'⟩ |
      ⟨hflatten, p', trace, hread'⟩ :=
    Peer.readFrom_sends ⟨none, false⟩ parts more source.peer
  · rw [← hread] at hresult hscript'
    refine .inl ⟨before, part, after, _, _, rfl, hbefore, next_of_octets hwait hresult, rfl,
      Peer.length_read_script_lt hresult, rfl, Body.isChunked_advance hchunked, hscript', ?_⟩
    rw [List.flatten_append, hbefore, List.nil_append, List.flatten_cons, List.append_assoc]
  · refine .inr ⟨hflatten, by rwa [hflatten, List.append_nil], ?_⟩
    rintro rfl
    refine next_of_endOfInput hwait ?_
    rw [hread, hread']
    rfl

/-- Where a line is cut, a call gives a chunk of the text, or refuses a line for its length. -/
theorem Holds.next_of_cutsLine (h : source.Holds body text parts more)
    (hcuts : body.CutsLine source.buffer parts) :
    (∃ octets parts', source.next.result = .chunk octets ∧
      (body.advance text).outcome = .chunk octets ∧
        source.next.source.Holds (body.advance text).body (body.advance text).rest parts' more ∧
          (body.advance text).body.CutsLine source.next.source.buffer parts') ∨
    ∃ phase : Body.Phase,
      source.next.result = .failed (.malformed (.invalidChunk phase.tooLong)) := by
  induction hn : source.peer.script.length using Nat.strongRecOn generalizing source body text parts
    with
  | ind n ih =>
    have hchunked : (body.advance source.buffer).body.IsChunked := Body.isChunked_advance h.chunked
    have hcuts' := hcuts.advance h.chunked
    cases houtcome : (body.advance source.buffer).outcome with
    | wait =>
      have hstep := Body.step_advance fun octets hchunk => nomatch houtcome.symm.trans hchunk
      rw [houtcome] at hstep
      obtain ⟨htext, hread⟩ := h.next_of_wait houtcome
      obtain ⟨before, part, after, source', trace, rfl, hbefore, hnext, hbuffer, hlt, hholds⟩ |
        ⟨hflatten, -⟩ := hread
      · rw [hnext, htext]
        refine ih _ (hn ▸ hlt) hholds ?_ rfl
        rw [hbuffer]
        exact hcuts'.of_wait hchunked hstep hbefore
      · -- nothing is to come, so that the line is not long enough
        obtain ⟨line, after, hmeets, -, hlong, -⟩ := hcuts'
        have := hmeets.length_le_of_wait hchunked hstep
        rw [hflatten, List.length_nil] at this
        omega
    | chunk octets =>
      have hne : (body.advance source.buffer).outcome ≠ .wait :=
        fun hwait => nomatch houtcome.symm.trans hwait
      have hfinal := Body.advance_append h.chunked (.inr ⟨octets, houtcome⟩) parts.flatten
      obtain ⟨hresult, hbuffer, hholds⟩ := h.next_of_outcome hne
      rw [h.text_eq] at hfinal
      rw [houtcome] at hresult
      rw [hfinal]
      refine .inl ⟨octets, parts, hresult, houtcome, hholds, ?_⟩
      rw [hbuffer]
      exact hcuts'
    | complete =>
      obtain ⟨line, -, hmeets, -⟩ := hcuts'
      exact absurd hmeets (Body.not_meets_of_done (Body.phase_of_advance_complete houtcome))
    | refused error =>
      have hstep := Body.step_advance fun octets hchunk => nomatch houtcome.symm.trans hchunk
      have hne : (body.advance source.buffer).outcome ≠ .wait :=
        fun hwait => nomatch houtcome.symm.trans hwait
      rw [houtcome] at hstep
      obtain ⟨hresult, -⟩ := h.next_of_outcome hne
      rw [houtcome, hcuts'.of_refuse hchunked hstep] at hresult
      exact .inr ⟨_, hresult⟩

/-- **A call reports what the whole text leads to**, and leaves what that leaves. -/
theorem Reads.next (h : source.Reads body text more)
    (hmore : (body.advance text).outcome = .wait → more = []) :
    source.next.result = atEnd (body.advance text).outcome ∧
      ((body.advance text).outcome ≠ .wait →
        source.next.source.Reads (body.advance text).body (body.advance text).rest more) := by
  obtain ⟨parts, hholds, hcuts⟩ := h
  induction hn : source.peer.script.length using Nat.strongRecOn generalizing source body text parts
    with
  | ind n ih =>
    by_cases hwait : (body.advance source.buffer).outcome = .wait
    · obtain ⟨htext, hread⟩ := hholds.next_of_wait hwait
      rw [htext] at hmore ⊢
      obtain ⟨before, part, after, source', trace, rfl, hbefore, hnext, hbuffer, hlt, hholds'⟩ |
        ⟨-, houtcome, hend⟩ := hread
      · rw [hnext]
        refine ih _ (hn ▸ hlt) hmore after hholds' ?_ rfl
        rw [hbuffer]
        have hcuts' := Body.not_cutsLine_advance (before ++ [part]) after hholds.chunked
          (by rwa [List.append_assoc, List.singleton_append])
        rwa [List.flatten_append, hbefore, List.nil_append, List.flatten_singleton] at hcuts'
      · rw [htext] at houtcome
        rw [houtcome]
        exact ⟨hend (hmore houtcome), fun hne => absurd rfl hne⟩
    · have hfinal := Body.advance_append_of_not_cutsLine hholds.chunked hcuts hwait
      rw [hholds.text_eq] at hfinal
      obtain ⟨hresult, hbuffer, hnext⟩ := hholds.next_of_outcome hwait
      rw [hfinal]
      refine ⟨hresult, fun _ => ⟨parts, hnext, ?_⟩⟩
      rw [hbuffer]
      have hcuts' := Body.not_cutsLine_advance [] parts hholds.chunked hcuts
      rwa [List.flatten_nil, List.append_nil] at hcuts'

/-! ### All calls -/

theorem all_of_chunk {octets : Bytes} (h : source.next.result = .chunk octets) :
    source.all = source.next :: source.next.source.all := by
  rw [all]
  split
  case h_1 => rfl
  case h_2 hne => exact absurd h (hne octets)

theorem all_of_not_chunk (h : ∀ octets, source.next.result ≠ .chunk octets) :
    source.all = [source.next] := by
  rw [all]
  split
  case h_1 octets hchunk => exact absurd hchunk (h octets)
  case h_2 => rfl

/-- What the calls give that read a body to its end. -/
def results (source : Source) : List Chunk := source.all.map Call.result

theorem results_of_chunk {octets : Bytes} (h : source.next.result = .chunk octets) :
    source.results = .chunk octets :: source.next.source.results := by
  rw [results, all_of_chunk h, List.map_cons, h]
  rfl

theorem results_of_not_chunk (h : ∀ octets, source.next.result ≠ .chunk octets) :
    source.results = [source.next.result] := by
  rw [results, all_of_not_chunk h]
  rfl

theorem Reads.results_of_chunk {octets : Bytes} (h : source.Reads body text [])
    (hchunk : (body.advance text).outcome = .chunk octets) :
    source.next.source.Reads (body.advance text).body (body.advance text).rest [] ∧
      source.results = .chunk octets :: source.next.source.results := by
  obtain ⟨hresult, hreads⟩ := h.next fun _ => rfl
  rw [hchunk] at hresult hreads
  exact ⟨hreads nofun, Source.results_of_chunk hresult⟩

/-- An end to which the whole text leads is given, and is the last result. -/
theorem Reads.results_of_not_chunk (h : source.Reads body text [])
    (hchunk : ∀ octets, (body.advance text).outcome ≠ .chunk octets) :
    source.results = [atEnd (body.advance text).outcome] := by
  obtain ⟨hresult, -⟩ := h.next fun _ => rfl
  rw [Source.results_of_not_chunk, hresult]
  rw [hresult]
  intro octets
  cases houtcome : (body.advance text).outcome with
  | chunk octets' => exact absurd houtcome (hchunk octets')
  | complete | wait | refused => exact nofun

/-- **Where no line is cut**, the calls give the same however the text arrives. -/
theorem Reads.results_eq (h : source.Reads body text []) (h' : source'.Reads body text []) :
    source.results = source'.results := by
  induction hn : body.measure text using Nat.strongRecOn generalizing source source' body text with
  | ind n ih =>
    by_cases hchunk : ∃ octets, (body.advance text).outcome = .chunk octets
    · obtain ⟨octets, houtcome⟩ := hchunk
      have hlt := (body.advance_le text).2 octets houtcome
      obtain ⟨hreads, hresults⟩ := h.results_of_chunk houtcome
      obtain ⟨hreads', hresults'⟩ := h'.results_of_chunk houtcome
      rw [hresults, hresults', ih _ (hn ▸ hlt) hreads hreads' rfl]
    · have hnot := fun octets houtcome => hchunk ⟨octets, houtcome⟩
      rw [h.results_of_not_chunk hnot, h'.results_of_not_chunk hnot]

/-- **Where a line is cut**, the calls give chunks of the text, and then refuse a line for its
length. -/
theorem Holds.results_of_cutsLine (h : source.Holds body text parts [])
    (hcuts : body.CutsLine source.buffer parts) (h' : source'.Reads body text []) :
    ∃ (chunks : List Bytes) (phase : Body.Phase), chunks.map .chunk <+: source'.results ∧
      source.results =
        chunks.map .chunk ++ [.failed (.malformed (.invalidChunk phase.tooLong))] := by
  induction hn : body.measure text using Nat.strongRecOn
    generalizing source source' body text parts with
  | ind n ih =>
    obtain ⟨octets, parts', hresult, houtcome, hnext, hcuts'⟩ | ⟨phase, hresult⟩ :=
      h.next_of_cutsLine hcuts
    · have hlt := (body.advance_le text).2 octets houtcome
      obtain ⟨hreads, hresults'⟩ := h'.results_of_chunk houtcome
      obtain ⟨chunks, phase, hprefix, hresults⟩ := ih _ (hn ▸ hlt) hnext hcuts' hreads rfl
      refine ⟨octets :: chunks, phase, ?_, ?_⟩
      · rw [hresults']
        exact List.cons_prefix_cons.2 ⟨rfl, hprefix⟩
      · rw [results_of_chunk hresult, hresults]
        rfl
    · refine ⟨[], phase, List.nil_prefix, ?_⟩
      rw [results_of_not_chunk (hresult ▸ nofun), hresult]
      rfl

/-- A chunked body of which nothing is read yet: octets at hand, and a peer that sends more in parts
and then closes. -/
def inParts (limit : Nat) (buffer : Bytes) (parts : List Bytes) : Source :=
  { body := .ofFraming .chunked limit, buffer, peer := { script := parts.map .send } }

theorem holds_inParts (limit : Nat) (buffer : Bytes) (parts : List Bytes) :
    (inParts limit buffer parts).Holds (.ofFraming .chunked limit) (buffer ++ parts.flatten) parts
      [] where
  body_eq := rfl
  chunked := nofun
  script_eq := (List.append_nil _).symm
  text_eq := rfl

/-- **Chunked bodies in parts.** However a text arrives, reading it gives the same chunks and then
the same end, as long as no part stops inside a line of which more than 4096 octets are at hand. If
one does, reading gives chunks of the text and then refuses a line for its length. That is never the
case for a text that is at hand, whatever the length of its lines; and when the octets arrive one by
one it is the case exactly if a line has 4096 octets or more. -/
theorem results_in_parts (limit : Nat) :
    (∀ (buffer buffer' : Bytes) (parts parts' : List Bytes),
      buffer ++ parts.flatten = buffer' ++ parts'.flatten →
      ¬ (Body.ofFraming .chunked limit).CutsLine buffer parts →
      ¬ (Body.ofFraming .chunked limit).CutsLine buffer' parts' →
        (inParts limit buffer parts).results = (inParts limit buffer' parts').results) ∧
    (∀ (buffer : Bytes) (parts : List Bytes),
      (Body.ofFraming .chunked limit).CutsLine buffer parts →
        ∃ (chunks : List Bytes) (phase : Body.Phase),
          chunks.map .chunk <+: (inParts limit (buffer ++ parts.flatten) []).results ∧
          (inParts limit buffer parts).results =
            chunks.map .chunk ++ [.failed (.malformed (.invalidChunk phase.tooLong))]) ∧
    (∀ text : Bytes, ¬ (Body.ofFraming .chunked limit).CutsLine text []) ∧
    (∀ text : Bytes, (Body.ofFraming .chunked limit).CutsLine [] (text.map fun b => [b]) ↔
      ∃ line stop, (Body.ofFraming .chunked limit).Meets text line ∧
        Bytes.findCrlf? line = some stop ∧ maxLineLength ≤ stop) := by
  refine ⟨?_, ?_, Body.not_cutsLine_nil _, Body.cutsLine_singletons _⟩
  · intro buffer buffer' parts parts' htext hcuts hcuts'
    exact Reads.results_eq ⟨parts, htext ▸ holds_inParts limit buffer parts, hcuts⟩
      ⟨parts', holds_inParts limit buffer' parts', hcuts'⟩
  · intro buffer parts hcuts
    refine (holds_inParts limit buffer parts).results_of_cutsLine hcuts
      ⟨[], ?_, Body.not_cutsLine_nil _ _⟩
    have hholds := holds_inParts limit (buffer ++ parts.flatten) []
    rwa [List.flatten_nil, List.append_nil] at hholds

end Source

end Session

/-! ### A line that is longer than what is waited for -/

/-- The size line `0`. -/
def SizeText.zero : SizeText where
  before := []
  digits := ['0']
  after := []
  extension := []
  size := 0
  before_blank := nofun
  after_blank := nofun
  length_digits_le := by decide
  size_eq := rfl
  extension_eq := .inl rfl
  noCrlf := by decide

theorem SizeText.cr_notMem_one (n : Nat) :
    Bytes.cr ∉ Utf8.encodeChars ['1'] ++ 0x3B :: List.replicate n 0x78 := by
  intro hcr
  rcases List.mem_append.1 hcr with hcr | hcr
  · exact absurd hcr (by decide)
  rcases List.mem_cons.1 hcr with hcr | hcr
  · exact absurd hcr (by decide)
  · exact absurd (List.eq_of_mem_replicate hcr) (by decide)

/-- The size line `1` with a number of octets in its extension. -/
def SizeText.one (n : Nat) : SizeText where
  before := []
  digits := ['1']
  after := []
  extension := 0x3B :: List.replicate n 0x78
  size := 1
  before_blank := nofun
  after_blank := nofun
  length_digits_le := by decide
  size_eq := rfl
  extension_eq := .inr rfl
  noCrlf := fun hcrlf => cr_notMem_one n (hcrlf.subset List.mem_cons_self)

theorem SizeText.length_wire_one (n : Nat) : (one n).wire.length = n + 2 := by
  change (Utf8.encodeChars ['1'] ++ 0x3B :: List.replicate n 0x78).length = n + 2
  rw [List.length_append, List.length_cons, List.length_replicate]
  exact Nat.add_comm _ _

theorem SizeText.findCrlf?_wire (line : SizeText) : Bytes.findCrlf? line.wire = none :=
  Bytes.search_eq_none_iff.2 line.noCrlf

namespace Session.Source

/-- A chunk whose size line has 4097 octets: delivered when it is at hand, and refused when nothing
but the size line is at hand at first. -/
theorem results_one :
    let text := Bytes.crlf ++ Utf8.encode "a\r\n0\r\n\r\n"
    (inParts 1 ((SizeText.one 4095).wire ++ text) []).results =
        [.chunk (Utf8.encode "a"), .complete] ∧
      (inParts 1 (SizeText.one 4095).wire [text]).results =
        [.failed (.malformed (.invalidChunk "chunk size line too long"))] := by
  intro text
  constructor
  · have hchunk : (Body.ofFraming .chunked 1).advance ((SizeText.one 4095).wire ++ text) =
        ⟨.chunk (Utf8.encode "a"), ⟨.sizeLine, 1, 1⟩, Utf8.encode "0\r\n\r\n"⟩ :=
      Body.advance_chunk rfl rfl (by decide) (by decide) (Utf8.encode "0\r\n\r\n")
    have hlast : (⟨.sizeLine, 1, 1⟩ : Body).advance (Utf8.encode "0\r\n\r\n") =
        ⟨.complete, ⟨.done, 1, 1⟩, []⟩ :=
      Body.advance_last rfl (rfl : SizeText.zero.size = 0) (List.forall_mem_nil _) []
    have hreads : (inParts 1 ((SizeText.one 4095).wire ++ text) []).Reads
        (.ofFraming .chunked 1) ((SizeText.one 4095).wire ++ text) [] :=
      ⟨[], ⟨rfl, nofun, rfl, List.append_nil _⟩, Body.not_cutsLine_nil _ _⟩
    obtain ⟨hreads', hresults⟩ := hreads.results_of_chunk (congrArg Body.Advance.outcome hchunk)
    rw [hchunk] at hreads'
    rw [hresults, hreads'.results_of_not_chunk]
    all_goals rw [hlast]
    · rfl
    · exact nofun
  · have hrefuse : (Body.ofFraming .chunked 1).step (SizeText.one 4095).wire =
        .refuse (.malformed (.invalidChunk "chunk size line too long")) := by
      rw [Body.step_of_noLine rfl (SizeText.findCrlf?_wire _), Body.waitForLine, if_pos]
      · rfl
      · rw [SizeText.length_wire_one]
        decide
    have houtcome := congrArg Body.Advance.outcome (Body.advance_of_refuse hrefuse)
    obtain ⟨hresult, -⟩ := (holds_inParts 1 (SizeText.one 4095).wire [text]).next_of_outcome
      fun hwait => by cases houtcome.symm.trans hwait
    have hrefused := hresult.trans (congrArg atEnd houtcome)
    have hnot : ∀ octets, (inParts 1 (SizeText.one 4095).wire [text]).next.result ≠
        .chunk octets := by
      intro octets hchunk
      cases hrefused.symm.trans hchunk
    rw [results_of_not_chunk hnot, hrefused]
    rfl

end Session.Source

end HttpEcho
