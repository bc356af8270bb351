import HttpEcho.Proofs.Body.Arrival

/-!
# Decoding chunked bodies

The calls for the chunks of a body undo the encoding of the chunks, however its text arrives
(`Session.Source.gives_of_chunked`). There are two parts to it. Reading a whole text at once
delivers its chunks one by one, up to its end (`Body.delivers_of_chunked`) or up to the first chunk
for which there is no room (`Body.delivers_of_chunked_of_lt`), and comes to short lines only, by
induction on the text. And what reading at once delivers, the calls give, for short lines are not
cut (`Session.Source.Reads.gives`).
-/

namespace HttpEcho

namespace Body

variable {body next : Body} {line : SizeText} {octets text rest suffix : Bytes}
    {chunks : List Bytes}
  {limit received : Nat}

/-- Reading the octets at once delivers chunks and then comes to an end, with the rest left. -/
inductive Delivers : Body → Bytes → List Bytes → Outcome → Bytes → Prop
  | stop {body next : Body} {text rest : Bytes} {final : Outcome} :
      body.advance text = ⟨final, next, rest⟩ → (∀ octets, final ≠ .chunk octets) →
        final ≠ .wait → Delivers body text [] final rest
  | chunk {body next : Body} {text text' octets rest : Bytes} {chunks : List Bytes}
      {final : Outcome} :
      body.advance text = ⟨.chunk octets, next, text'⟩ → Delivers next text' chunks final rest →
        Delivers body text (octets :: chunks) final rest

/-! ### Short lines -/

theorem findCrlf?_wire_append (line : SizeText) (rest : Bytes) :
    Bytes.findCrlf? (line.wire ++ (Bytes.crlf ++ rest)) = some line.wire.length :=
  Bytes.findCrlf?_append_crlf line.noCrlf rest

/-- A chunk with a short size line has short lines if what follows it has. -/
theorem shortLines_chunk (hphase : body.phase = .sizeLine) (hsize : line.size = octets.length)
    (hne : octets ≠ []) (hline : line.wire.length < maxLineLength)
    (hlimit : body.received + octets.length ≤ body.limit)
    (h : ShortLines { body with received := body.received + octets.length } rest) :
    body.ShortLines (line.wire ++ (Bytes.crlf ++ (octets ++ (Bytes.crlf ++ rest)))) := by
  have hsize' : line.size ≠ 0 := hsize ▸ mt List.length_eq_zero_iff.1 hne
  have hwire := step_wire hphase line (octets ++ (Bytes.crlf ++ rest))
  rw [if_neg hsize', if_neg (by omega)] at hwire
  refine shortLines_of_skip (findCrlf?_wire_append line _) hline hwire ?_
  refine shortLines_of_chunk nofun (step_data (congrArg Phase.data hsize) rest) ?_
  rwa [← hphase]

/-- A chunk for which there is no room is refused at its size line, and no line behind it counts. -/
theorem shortLines_tooLarge (hphase : body.phase = .sizeLine)
    (hline : line.wire.length < maxLineLength) (hlimit : body.limit < body.received + line.size)
    (hreceived : body.received ≤ body.limit) (rest : Bytes) :
    body.ShortLines (line.wire ++ (Bytes.crlf ++ rest)) := by
  have hwire := step_wire hphase line rest
  rw [if_neg (by omega), if_pos hlimit] at hwire
  exact shortLines_of_refuse (findCrlf?_wire_append line _) hline hwire

theorem shortLines_trailers {trailers : List Bytes} (hphase : body.phase = .trailers)
    (h : ∀ t ∈ trailers, IsTrailer t) (rest : Bytes) :
    body.ShortLines (trailerText trailers ++ rest) := by
  induction trailers with
  | nil =>
    have hblank := step_trailer hphase (by decide : ¬ Bytes.crlf <:+: []) rest
    rw [if_pos rfl] at hblank
    exact shortLines_of_skip (Bytes.search_self_append _ _) (by decide) hblank
      (shortLines_of_done rfl _)
  | cons trailer trailers ih =>
    obtain ⟨⟨hne, hcrlf, hline⟩, htrailers⟩ := List.forall_mem_cons.1 h
    have hskip := step_trailer hphase hcrlf (trailerText trailers ++ rest)
    rw [if_neg hne, ← hphase] at hskip
    rw [trailerText_cons, List.append_assoc, List.append_assoc]
    exact shortLines_of_skip (Bytes.findCrlf?_append_crlf hcrlf _) hline hskip (ih htrailers)

/-- The last chunk, with its trailers, has short lines. -/
theorem shortLines_last {trailers : List Bytes} (hphase : body.phase = .sizeLine)
    (hsize : line.size = 0) (hline : line.wire.length < maxLineLength)
    (h : ∀ t ∈ trailers, IsTrailer t) (rest : Bytes) :
    body.ShortLines (line.wire ++ (Bytes.crlf ++ (trailerText trailers ++ rest))) := by
  have hwire := step_wire hphase line (trailerText trailers ++ rest)
  rw [if_pos hsize] at hwire
  exact shortLines_of_skip (findCrlf?_wire_append line _) hline hwire
    (shortLines_trailers rfl h rest)

/-! ### Chunked texts -/

/-- **A chunked body within the limit** delivers its chunks, and leaves what follows it. -/
theorem delivers_of_chunked (h : Chunked text chunks)
    (hlimit : received + chunks.flatten.length ≤ limit) (suffix : Bytes) :
    Delivers ⟨.sizeLine, limit, received⟩ (text ++ suffix) chunks .complete suffix ∧
      ShortLines ⟨.sizeLine, limit, received⟩ (text ++ suffix) := by
  induction h generalizing received with
  | @last line trailers hsize hline htrailers =>
    rw [List.append_assoc, List.append_assoc]
    refine ⟨.stop (advance_last rfl hsize ?_ suffix) nofun nofun,
      shortLines_last rfl hsize hline htrailers suffix⟩
    exact fun t ht => ⟨(htrailers t ht).1, (htrailers t ht).2.1⟩
  | @chunk line octets text chunks hsize hne hline hchunked ih =>
    rw [List.flatten_cons, List.length_append, ← Nat.add_assoc] at hlimit
    simp only [List.append_assoc]
    obtain ⟨hdelivers, hshort⟩ := ih hlimit
    have hroom : received + octets.length ≤ limit := by omega
    exact ⟨.chunk (advance_chunk rfl hsize hne hroom _) hdelivers,
      shortLines_chunk rfl hsize hne hline hroom hshort⟩

/-- **A chunked body beyond the limit** delivers the chunks for which there is room, and is refused
when the size line of the next one is at hand. -/
theorem delivers_of_chunked_of_lt (h : Chunked text chunks) (hreceived : received ≤ limit)
    (hlimit : limit < received + chunks.flatten.length) :
    ∃ before octets after front back, chunks = before ++ octets :: after ∧
      received + before.flatten.length ≤ limit ∧
        limit < received + before.flatten.length + octets.length ∧
      text = front ++ (octets ++ (Bytes.crlf ++ back)) ∧ Chunked back after ∧
      ∀ rest, (∃ left,
        Delivers ⟨.sizeLine, limit, received⟩ (front ++ rest) before
          (.refused (.tooLarge limit)) left) ∧
          ShortLines ⟨.sizeLine, limit, received⟩ (front ++ rest) := by
  induction h generalizing received with
  | last =>
    rw [List.flatten_nil, List.length_nil] at hlimit
    omega
  | @chunk line octets text chunks hsize hne hline hchunked ih =>
    by_cases hroom : received + octets.length ≤ limit
    · rw [List.flatten_cons, List.length_append, ← Nat.add_assoc] at hlimit
      obtain ⟨before, octets', after, front, back, rfl, hle, hlt, rfl, hback, hfront⟩ :=
        ih hroom hlimit
      refine ⟨octets :: before, octets', after,
        line.wire ++ (Bytes.crlf ++ (octets ++ (Bytes.crlf ++ front))), back, rfl, ?_, ?_, ?_,
          hback, ?_⟩
      · rw [List.flatten_cons, List.length_append]
        omega
      · rw [List.flatten_cons, List.length_append]
        omega
      · simp only [List.append_assoc]
      · intro rest
        obtain ⟨⟨left, hdelivers⟩, hshort⟩ := hfront rest
        simp only [List.append_assoc]
        exact ⟨⟨left, .chunk (advance_chunk rfl hsize hne hroom _) hdelivers⟩,
          shortLines_chunk rfl hsize hne hline hroom hshort⟩
    · -- this is the chunk that there is no room for
      refine ⟨[], octets, chunks, line.wire ++ Bytes.crlf, text, rfl, hreceived, ?_, ?_,
        hchunked, ?_⟩
      · exact Nat.lt_of_not_le hroom
      · rw [List.append_assoc]
      · intro rest
        have hsize' : limit < received + line.size := hsize ▸ Nat.lt_of_not_le hroom
        rw [List.append_assoc]
        exact ⟨⟨_, .stop (advance_tooLarge rfl hsize' hreceived rest) nofun nofun⟩,
          shortLines_tooLarge rfl hline hsize' hreceived rest⟩

end Body

namespace Session.Source

variable {source : Source} {body : Body} {text rest : Bytes} {chunks : List Bytes}
  {more : List Move} {final : Body.Outcome} {last : Chunk}

/-- The source after a number of calls. -/
def after (source : Source) : Nat → Source
  | 0 => source
  | calls + 1 => after source.next.source calls

/-- The calls give chunks, and from then on always the same. -/
def Gives (source : Source) (chunks : List Bytes) (last : Chunk) : Prop :=
  ∀ calls, (source.after calls).next.result = (chunks.map .chunk)[calls]?.getD last

theorem Gives.cons {octets : Bytes} (hresult : source.next.result = .chunk octets)
    (h : source.next.source.Gives chunks last) : source.Gives (octets :: chunks) last := by
  intro calls
  cases calls with
  | zero => exact hresult
  | succ calls => exact h calls

/-- Where reading has come to an end, it stays there. -/
theorem Reads.after_of_stop (h : source.Reads body text more)
    (hstop : ∀ octets, (body.advance text).outcome ≠ .chunk octets)
    (hwait : (body.advance text).outcome ≠ .wait) (calls : Nat) :
    (source.after calls).next.result = atEnd (body.advance text).outcome ∧
      (source.after (calls + 1)).Reads (body.advance text).body (body.advance text).rest more := by
  induction calls generalizing source body text with
  | zero =>
    obtain ⟨hresult, hreads⟩ := h.next fun hoption => absurd hoption hwait
    exact ⟨hresult, hreads hwait⟩
  | succ calls ih =>
    obtain ⟨-, hreads⟩ := h.next fun hoption => absurd hoption hwait
    have hnext := ih (hreads hwait)
    rw [Body.advance_advance hstop] at hnext
    exact hnext hstop hwait

/-- **What reading at once delivers, the calls give.** -/
theorem Reads.gives (h : source.Reads body text more)
    (hdelivers : body.Delivers text chunks final rest) :
    source.Gives chunks (atEnd final) ∧
      ∀ calls, chunks.length < calls → ∃ next, (source.after calls).Reads next rest more := by
  induction hdelivers generalizing source with
  | @stop body next text rest final hadvance hstop hwait =>
    have hafter := h.after_of_stop (by rwa [hadvance]) (by rwa [hadvance])
    rw [hadvance] at hafter
    refine ⟨fun calls => (hafter calls).1, ?_⟩
    rintro (_ | calls) hlt
    · cases hlt
    · exact ⟨next, (hafter calls).2⟩
  | @chunk body next text text' octets rest chunks final hadvance _ ih =>
    have hcall := h.next (by rw [hadvance]; exact nofun)
    rw [hadvance] at hcall
    obtain ⟨hgives, hafter⟩ := ih (hcall.2 nofun)
    refine ⟨hgives.cons hcall.1, ?_⟩
    rintro (_ | calls) hlt
    · cases hlt
    · exact hafter calls (Nat.lt_of_succ_lt_succ hlt)

/-- A text of short lines is read as a whole, however it is divided. -/
theorem reads_of_shortLines {peer : Peer} {buffer : Bytes} {parts : List Bytes} {limit : Nat}
    (hscript : peer.script = parts.map .send ++ more) (htext : buffer ++ parts.flatten = text)
    (hshort : (Body.ofFraming .chunked limit).ShortLines text) :
    Reads ⟨.ofFraming .chunked limit, buffer, peer⟩ (.ofFraming .chunked limit) text more :=
  ⟨parts, ⟨rfl, nofun, hscript, htext⟩, Body.not_cutsLine_of_shortLines (htext ▸ hshort)⟩

/-- **Decoding a chunked body**, of which some is at hand and the rest arrives in parts. Within the
limit the calls give its chunks and then for ever its end, and the octets that follow the body are
left, at hand or to be read. Beyond the limit they give the chunks for which there is room, and then
refuse the body: the octets up to the size line of the next chunk suffice for that, whatever
follows. -/
theorem gives_of_chunked (h : Chunked text chunks) (limit : Nat) :
    (chunks.flatten.length ≤ limit →
      ∀ (peer : Peer) (buffer suffix : Bytes) (parts : List Bytes) (more : List Move),
        peer.script = parts.map .send ++ more → buffer ++ parts.flatten = text ++ suffix →
          Gives ⟨.ofFraming .chunked limit, buffer, peer⟩ chunks .complete ∧
          ∀ calls, chunks.length < calls → ∃ parts' : List Bytes,
            (after ⟨.ofFraming .chunked limit, buffer, peer⟩ calls).peer.script =
                parts'.map .send ++ more ∧
              (after ⟨.ofFraming .chunked limit, buffer, peer⟩ calls).buffer ++ parts'.flatten =
                suffix) ∧
    (limit < chunks.flatten.length →
      ∃ before octets behind front back, chunks = before ++ octets :: behind ∧
        before.flatten.length ≤ limit ∧ limit < before.flatten.length + octets.length ∧
        text = front ++ (octets ++ (Bytes.crlf ++ back)) ∧ Chunked back behind ∧
        ∀ (peer : Peer) (buffer rest : Bytes) (parts : List Bytes) (more : List Move),
          peer.script = parts.map .send ++ more → buffer ++ parts.flatten = front ++ rest →
            Gives ⟨.ofFraming .chunked limit, buffer, peer⟩ before
              (.failed (.tooLarge limit))) := by
  constructor
  · intro hlimit peer buffer suffix parts more hscript htext
    rw [← Nat.zero_add chunks.flatten.length] at hlimit
    obtain ⟨hdelivers, hshort⟩ := Body.delivers_of_chunked h hlimit suffix
    obtain ⟨hgives, hafter⟩ := (reads_of_shortLines hscript htext hshort).gives hdelivers
    refine ⟨hgives, fun calls hlt => ?_⟩
    obtain ⟨next, parts', hholds, -⟩ := hafter calls hlt
    exact ⟨parts', hholds.script_eq, hholds.text_eq⟩
  · intro hlimit
    rw [← Nat.zero_add chunks.flatten.length] at hlimit
    obtain ⟨before, octets, behind, front, back, hchunks, hle, hlt, htext, hback, hfront⟩ :=
      Body.delivers_of_chunked_of_lt h (Nat.zero_le limit) hlimit
    rw [Nat.zero_add] at hle hlt
    refine ⟨before, octets, behind, front, back, hchunks, hle, hlt, htext, hback, ?_⟩
    intro peer buffer rest parts more hscript hparts
    obtain ⟨⟨left, hdelivers⟩, hshort⟩ := hfront rest
    exact ((reads_of_shortLines hscript hparts hshort).gives hdelivers).1

/-- A size line with blanks, a leading zero, a capital digit and an extension. -/
def elevenLine : SizeText where
  before := [' ']
  digits := ['0', 'B']
  after := ['\t']
  extension := Utf8.encode ";n=v"
  size := 11
  before_blank := List.forall_mem_singleton.2 rfl
  after_blank := List.forall_mem_singleton.2 rfl
  length_digits_le := by decide
  size_eq := rfl
  extension_eq := .inr rfl
  noCrlf := by decide

/-- A body with two chunks and a trailer. -/
def twoChunks : Bytes := Utf8.encode "1;\r\na\r\n 0B\t;n=v\r\n0123456789X\r\n0\r\nT: x\r\n\r\n"

theorem chunked_twoChunks : Chunked twoChunks [Utf8.encode "a", Utf8.encode "0123456789X"] := by
  have hlast : Chunked (Utf8.encode "0\r\nT: x\r\n\r\n") [] :=
    @Chunked.last SizeText.zero [Utf8.encode "T: x"] rfl (by decide)
      (List.forall_mem_singleton.2 ⟨by decide, by decide, by decide⟩)
  have hrest : Chunked (Utf8.encode " 0B\t;n=v\r\n0123456789X\r\n0\r\nT: x\r\n\r\n")
      [Utf8.encode "0123456789X"] :=
    @Chunked.chunk elevenLine (Utf8.encode "0123456789X") _ [] rfl (by decide) (by decide) hlast
  exact @Chunked.chunk (SizeText.one 0) (Utf8.encode "a") _ _ rfl (by decide) (by decide) hrest

/-- The second chunk is found in one place only. -/
theorem eq_take_of_twoChunks_eq {front back : Bytes}
    (h : twoChunks = front ++ (Utf8.encode "0123456789X" ++ back)) : front = twoChunks.take 17 := by
  have hplace : ∀ n ≤ twoChunks.length,
      Utf8.encode "0123456789X" <+: twoChunks.drop n → n = 17 := by decide +kernel
  have hle : front.length ≤ twoChunks.length := by
    rw [h]
    exact (List.prefix_append _ _).length_le
  have hprefix : Utf8.encode "0123456789X" <+: twoChunks.drop front.length := by
    rw [h, List.drop_left]
    exact List.prefix_append _ _
  rw [← hplace front.length hle hprefix, h, List.take_left]

/-- The same body with room for both chunks, in four parts and with octets behind it. -/
def twoChunksParts : Source :=
  inParts 12 (Utf8.encode "1;\r") [Utf8.encode "\na\r", Utf8.encode "\n 0B\t;n=v\r\n01234",
    Utf8.encode "56789X\r\n0\r\nT: x\r\n\r\nGET"]

/-- The same body without room for the second chunk, of which nothing ever arrives. -/
def twoChunksCut : Source :=
  { body := .ofFraming .chunked 11, buffer := Utf8.encode "1;\r"
    peer :=
      { script := [.send (Utf8.encode "\na\r"), .send (Utf8.encode "\n 0B\t;n=v\r\n"), .hang] } }

/-- The one gives both chunks and leaves what is behind them, the other one gives the first chunk
and is refused then. -/
theorem gives_of_chunked_two :
    (twoChunksParts.Gives [Utf8.encode "a", Utf8.encode "0123456789X"] .complete ∧
      ∃ parts : List Bytes, (twoChunksParts.after 3).peer.script = parts.map .send ++ [] ∧
        (twoChunksParts.after 3).buffer ++ parts.flatten = Utf8.encode "GET") ∧
    twoChunksCut.Gives [Utf8.encode "a"] (.failed (.tooLarge 11)) := by
  constructor
  · obtain ⟨hgives, hafter⟩ := (gives_of_chunked chunked_twoChunks 12).1 (by decide)
      twoChunksParts.peer (Utf8.encode "1;\r") (Utf8.encode "GET") [Utf8.encode "\na\r",
        Utf8.encode "\n 0B\t;n=v\r\n01234", Utf8.encode "56789X\r\n0\r\nT: x\r\n\r\nGET"] [] rfl rfl
    exact ⟨hgives, hafter 3 (by decide)⟩
  · obtain ⟨before, octets, behind, front, back, hchunks, -, hlt, htext, -, hgives⟩ :=
      (gives_of_chunked chunked_twoChunks 11).2 (by decide)
    obtain ⟨rfl, rfl⟩ : before = [Utf8.encode "a"] ∧ octets = Utf8.encode "0123456789X" := by
      cases before with
      | nil =>
        obtain ⟨rfl, -⟩ := List.cons.inj hchunks
        exact absurd hlt (by decide)
      | cons first before =>
        obtain ⟨rfl, hrest⟩ := List.cons.inj hchunks
        cases before with
        | nil =>
          obtain ⟨rfl, -⟩ := List.cons.inj hrest
          exact ⟨rfl, rfl⟩
        | cons second before =>
          exact absurd (List.cons.inj hrest).2.symm (List.append_ne_nil_of_right_ne_nil _ nofun)
    obtain rfl := eq_take_of_twoChunks_eq htext
    exact hgives twoChunksCut.peer (Utf8.encode "1;\r") [] [Utf8.encode "\na\r",
      Utf8.encode "\n 0B\t;n=v\r\n"] [.hang] rfl rfl

end Session.Source

end HttpEcho
