import HttpEcho.Proofs.Body.SizeLine
import HttpEcho.Proofs.Body.Words

/-!
# The grammar of size lines

A buffer in which a line has ended is laid out in one way only: the text in front of the first
semicolon, the extension, the first line end and what follows it (`SizeLine.Layout`). Reading the
line depends on the text alone, but for the octets that it takes (`SizeLine.Layout.parse_buffer`).
With what a text announces (`SizeLine.Announces`) this is the grammar that `SizeLine.parse_layout`
states, with what is read and what is refused.
-/

namespace HttpEcho.SizeLine

/-- A buffer in which a line has ended: the text of the size, the extension, which begins with a
semicolon, and what follows the line end. -/
structure Layout where
  text : Bytes
  extension : Bytes
  rest : Bytes
  semicolon_notMem : 0x3B ∉ text
  extension_eq : extension = [] ∨ extension.head? = some 0x3B
  noCrlf : ¬ Bytes.crlf <:+: text ++ extension

namespace Layout

/-- The line without its line end. -/
def line (d : Layout) : Bytes := d.text ++ d.extension

/-- The buffer that is laid out. -/
def buffer (d : Layout) : Bytes := d.line ++ (Bytes.crlf ++ d.rest)

/-- The size stands before the first semicolon. -/
theorem takeWhile_line (d : Layout) : d.line.takeWhile (· ≠ 0x3B) = d.text :=
  takeWhile_append_extension d.semicolon_notMem d.extension_eq

/-- What is read of a line depends on the text in front of its extension and on its length. -/
theorem parse_buffer (d : Layout) :
    parse d.buffer =
      match size? d.text with
      | none => .error (.malformed (.invalidChunk s!"invalid chunk size: {Utf8.lossy d.text}"))
      | some size => .ok (some ⟨size, d.line.length + 2⟩) := by
  have hfind : Bytes.findCrlf? d.buffer = some d.line.length :=
    Bytes.findCrlf?_append_crlf d.noCrlf d.rest
  have htext : (d.buffer.take d.line.length).takeWhile (· ≠ 0x3B) = d.text := by
    rw [buffer, List.take_left, takeWhile_line]
  cases hsize : size? d.text with
  | none | some size =>
    rw [parse, hfind]
    dsimp only
    rw [htext, hsize]

/-- A buffer is laid out in one way only. -/
theorem eq_of_buffer_eq {d d' : Layout} (h : d.buffer = d'.buffer) : d = d' := by
  obtain ⟨hline, hrest⟩ := Bytes.append_crlf_inj d.noCrlf d'.noCrlf h
  have htext : d.text = d'.text := by
    rw [← d.takeWhile_line, ← d'.takeWhile_line, line, line, hline]
  have hextension : d.extension = d'.extension := by
    rw [htext] at hline
    exact List.append_cancel_left hline
  cases d
  cases d'
  subst htext hextension hrest
  rfl

/-- A line is its text and its extension, from the first semicolon on. -/
theorem exists_extension (line : Bytes) : ∃ text extension, line = text ++ extension ∧
    0x3B ∉ text ∧ (extension = [] ∨ extension.head? = some 0x3B) := by
  by_cases hmem : 0x3B ∈ line
  · obtain ⟨text, extension, rfl, htext⟩ := List.eq_append_cons_of_mem hmem
    exact ⟨text, 0x3B :: extension, rfl, htext, .inr rfl⟩
  · exact ⟨line, [], (List.append_nil line).symm, hmem, .inl rfl⟩

/-- A buffer in which a line has ended is laid out. -/
theorem exists_buffer_eq {bytes : Bytes} (h : Bytes.crlf <:+: bytes) :
    ∃ d : Layout, d.buffer = bytes := by
  obtain ⟨stop, hstop⟩ : ∃ stop, Bytes.search Bytes.crlf bytes = some stop :=
    Option.ne_none_iff_exists'.1 fun hnone => Bytes.search_eq_none_iff.1 hnone h
  have hline : ¬ Bytes.crlf <:+: bytes.take stop :=
    Bytes.not_infix_take_of_search hstop (Nat.lt_add_of_pos_right (by decide))
  have hsplit := Bytes.eq_append_of_search hstop
  obtain ⟨text, extension, heq, htext, hextension⟩ := exists_extension (bytes.take stop)
  rw [heq] at hline hsplit
  exact ⟨⟨text, extension, bytes.drop (stop + 2), htext, hextension, hline⟩, hsplit.symm⟩

/-- A size is read from a line exactly if the line announces it. -/
theorem parse_buffer_eq_ok_iff (d : Layout) {read : SizeLine} :
    parse d.buffer = .ok (some read) ↔
      Announces d.text read.size ∧ read.width = d.line.length + 2 := by
  rw [d.parse_buffer, ← size?_eq_some_iff]
  obtain ⟨size, width⟩ := read
  cases size? d.text with
  | none => exact iff_of_false nofun fun h => nomatch h.1
  | some n =>
    constructor
    · intro h
      cases h
      exact ⟨rfl, rfl⟩
    · rintro ⟨hn, rfl⟩
      cases hn
      rfl

/-- A line is refused exactly if it announces no size, and the report quotes what stands for it. -/
theorem parse_buffer_eq_error_iff (d : Layout) {e : BodyError} :
    parse d.buffer = .error e ↔ (∀ size, ¬ Announces d.text size) ∧
      e = .malformed (.invalidChunk ("invalid chunk size: " ++ Utf8.lossy d.text)) := by
  simp only [d.parse_buffer, ← size?_eq_some_iff]
  cases size? d.text with
  | none =>
    constructor
    · intro h
      cases h
      exact ⟨nofun, rfl⟩
    · rintro ⟨-, rfl⟩
      rfl
  | some n => exact iff_of_false nofun fun h => h.1 n rfl

/-- Only the text has a say in the size. -/
theorem map_size_parse_buffer {d d' : Layout} (h : d'.text = d.text) :
    (parse d'.buffer).map (Option.map size) = (parse d.buffer).map (Option.map size) := by
  rw [d.parse_buffer, d'.parse_buffer, h]
  cases size? d.text <;> rfl

end Layout

/-- Nothing is read exactly as long as no line has ended. -/
theorem parse_eq_ok_none_iff {buffer : Bytes} :
    parse buffer = .ok none ↔ ¬ Bytes.crlf <:+: buffer := by
  constructor
  · intro h hcrlf
    obtain ⟨d, rfl⟩ := Layout.exists_buffer_eq hcrlf
    rw [d.parse_buffer] at h
    cases hsize : size? d.text with
    | none =>
      rw [hsize] at h
      cases h
    | some n =>
      rw [hsize] at h
      cases h
  · intro h
    have hnone : Bytes.findCrlf? buffer = none := Bytes.search_eq_none_iff.2 h
    rw [parse, hnone]

/-- **The grammar of size lines.** Nothing is read as long as no line has ended. After that a buffer
is laid out in one way, and what is read is the size that the text announces, with the octets of the
line and its line end; a text that announces none is refused and quoted. Each size that is announced
is a word, so that no check of its conversion, or of the places in the buffer, ever fails. What
follows the line has no say, nor has the extension but for its length. -/
theorem parse_layout :
    (∀ buffer : Bytes,
      (parse buffer = .ok none ↔ ¬ Bytes.crlf <:+: buffer) ∧
      (Bytes.crlf <:+: buffer ↔ ∃! d : Layout, d.buffer = buffer) ∧
      checkedParse? buffer = some (parse buffer)) ∧
    ∀ d : Layout,
      (∀ read : SizeLine, parse d.buffer = .ok (some read) ↔
        Announces d.text read.size ∧ read.width = d.line.length + 2) ∧
      (∀ e : BodyError, parse d.buffer = .error e ↔ (∀ size, ¬ Announces d.text size) ∧
        e = .malformed (.invalidChunk ("invalid chunk size: " ++ Utf8.lossy d.text))) ∧
      (∀ size, Announces d.text size → size < Text.wordSize) ∧
      (∀ rest, parse ({ d with rest } : Layout).buffer = parse d.buffer) ∧
      ∀ d' : Layout, d'.text = d.text →
        (parse d'.buffer).map (Option.map size) = (parse d.buffer).map (Option.map size) := by
  refine ⟨fun buffer => ⟨parse_eq_ok_none_iff, ⟨fun h => ?_, ?_⟩, checkedParse?_eq buffer⟩,
    fun d => ⟨fun _ => d.parse_buffer_eq_ok_iff, fun _ => d.parse_buffer_eq_error_iff,
      fun _ => Announces.lt_wordSize, fun rest => ?_, fun _ => Layout.map_size_parse_buffer⟩⟩
  · obtain ⟨d, hd⟩ := Layout.exists_buffer_eq h
    exact ⟨d, hd, fun d' hd' => Layout.eq_of_buffer_eq (hd'.trans hd.symm)⟩
  · rintro ⟨d, rfl, -⟩
    exact ⟨d.line, d.rest, List.append_assoc _ _ _⟩
  · exact ({ d with rest } : Layout).parse_buffer.trans d.parse_buffer.symm

/-- A size with blanks around it and letters of both cases, and an extension behind it. -/
def Layout.spaced : Layout where
  text := Utf8.encode " 1aF\t"
  extension := Utf8.encode ";x"
  rest := Utf8.encode "a"
  semicolon_notMem := by decide
  extension_eq := .inr rfl
  noCrlf := by decide

/-- Its size, with the octets of the line, and the same size without the extension. -/
theorem parse_layout_spaced :
    Announces Layout.spaced.text 431 ∧ 431 < Text.wordSize ∧
    parse Layout.spaced.buffer = .ok (some ⟨431, 9⟩) ∧
    ∃ d : Layout, d.extension = [] ∧ d.text = Layout.spaced.text ∧
      (parse d.buffer).map (Option.map size) =
        (parse Layout.spaced.buffer).map (Option.map size) := by
  have hannounces : Announces Layout.spaced.text 431 := by
    refine ⟨[' '], ['1', 'a', 'F'], ['\t'], rfl, ?_, ?_, by decide, by decide, [1, 10, 15], ?_,
      by decide⟩
    · exact List.forall_mem_singleton.2 (by decide)
    · exact List.forall_mem_singleton.2 (by decide)
    · exact .cons (by decide) (.cons (by decide) (.cons (by decide) .nil))
  obtain ⟨hok, -, hword, -, hsame⟩ := parse_layout.2 Layout.spaced
  refine ⟨hannounces, hword 431 hannounces, (hok ⟨431, 9⟩).2 ⟨hannounces, by decide⟩, ?_⟩
  exact ⟨⟨Layout.spaced.text, [], [], by decide, .inl rfl, by decide⟩, rfl, rfl, hsame _ rfl⟩

end HttpEcho.SizeLine
