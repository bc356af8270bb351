import HttpEcho.Proofs.Head.Grammar

/-!
# The first offence

A head that is complete and not too long but not in the grammar is refused for one of its lines.
`RequestLine.Fault` and `Field.Fault` say what can be wrong with a line by itself, and which error
that is; `Head.Offends` says when a line decides the error of a head: it is the first one with a
fault, or it is a header line for which there is no room.

Nothing behind that line has a say, neither in the head nor after it
(`Head.parse_of_not_headText`).
-/

namespace HttpEcho

/-! ### Request lines -/

/-- What can be wrong with a request line. Only the last of its parts can be an unsupported
version, and only if it begins as one. -/
inductive RequestLine.Fault : Bytes → ProtocolError → Prop
  | notText {line : Bytes} (hline : Utf8.decode? line = none) :
      Fault line (.invalidRequestLine "Invalid UTF-8 in request line")
  | otherShape {chars : List Char} (hchars : ∀ t : RequestLineParts, chars ≠ t.chars) :
      Fault (Utf8.encodeChars chars) (.invalidRequestLine (String.ofList chars))
  | otherVersion (t : RequestLineParts) (hscheme : "HTTP/".toList <+: t.version.toList)
      (hversion : ∀ version : Version, t.version ≠ version.text) :
      Fault (Utf8.encodeChars t.chars) (.unsupportedVersion t.version)
  | otherScheme (t : RequestLineParts) (hscheme : ¬ "HTTP/".toList <+: t.version.toList) :
      Fault (Utf8.encodeChars t.chars) (.invalidRequestLine (String.ofList t.chars))

/-- The versions that are served begin with the name of the protocol. -/
theorem Version.scheme_prefix (version : Version) : "HTTP/".toList <+: version.text.toList := by
  cases version <;> decide

/-- A version is refused exactly if it is not one of the two, as an unsupported one if it begins
like a version. -/
theorem Version.parse_eq_error_iff {line text : List Char} {e : ProtocolError} :
    Version.parse line text = .error e ↔ (∀ version : Version, text ≠ version.text.toList) ∧
      e = if "HTTP/".toList <+: text then .unsupportedVersion (String.ofList text)
        else .invalidRequestLine (String.ofList line) := by
  have hserved : (∀ version : Version, text ≠ version.text.toList) ↔
      text ≠ http11.text.toList ∧ text ≠ http10.text.toList := by
    refine ⟨fun h => ⟨h _, h _⟩, ?_⟩
    rintro ⟨h11, h10⟩ (_ | _)
    · exact h10
    · exact h11
  rw [hserved, Version.parse]
  by_cases h11 : text = http11.text.toList
  · simp [h11]
  by_cases h10 : text = http10.text.toList
  · rw [if_neg h11, if_pos h10]
    simp [h10]
  rw [if_neg h11, if_neg h10]
  simp only [List.isPrefixOf_iff_prefix, ne_eq, h11, h10, not_false_iff, true_and]
  split <;> simp [eq_comm]

/-- **A request line fails for its fault.** -/
theorem RequestLine.parse_eq_error_iff {line : Bytes} {e : ProtocolError} :
    RequestLine.parse line = .error e ↔ RequestLine.Fault line e := by
  constructor
  · intro h
    obtain ⟨hline, herror⟩ | ⟨chars, rfl, hchars, herror⟩ | ⟨t, rfl⟩ :=
      RequestLine.parse_cases line
    · cases h.symm.trans herror
      exact .notText hline
    · cases h.symm.trans herror
      exact .otherShape hchars
    -- a line of three parts fails only for its version
    rw [RequestLine.parse_of_parts] at h
    cases hversion : Version.parse t.chars t.version.toList with
    | ok version =>
      rw [hversion] at h
      cases h
    | error e' =>
      rw [hversion] at h
      cases h
      obtain ⟨hother, rfl⟩ := Version.parse_eq_error_iff.1 hversion
      split
      case isTrue hscheme =>
        rw [String.ofList_toList]
        exact .otherVersion t hscheme fun version htext => hother version (htext ▸ rfl)
      case isFalse hscheme => exact .otherScheme t hscheme
  · intro h
    cases h with
    | notText hline => rw [RequestLine.parse, hline]
    | otherShape hchars =>
      obtain ⟨hline, -⟩ | ⟨chars, hline, -, herror⟩ | ⟨t, hline⟩ := RequestLine.parse_cases _
      · cases hline.symm.trans (Utf8.decode?_encodeChars _)
      · rw [herror, Utf8.encodeChars_inj.1 hline]
      · exact absurd (Utf8.encodeChars_inj.1 hline) (hchars t)
    | otherVersion t hscheme hversion =>
      have herror : Version.parse t.chars t.version.toList =
          .error (.unsupportedVersion t.version) := by
        refine Version.parse_eq_error_iff.2 ⟨fun version htext => ?_, ?_⟩
        · exact hversion version (String.toList_inj.1 htext)
        · rw [if_pos hscheme, String.ofList_toList]
      rw [RequestLine.parse_of_parts, herror]
      rfl
    | otherScheme t hscheme =>
      have herror : Version.parse t.chars t.version.toList =
          .error (.invalidRequestLine (String.ofList t.chars)) := by
        refine Version.parse_eq_error_iff.2 ⟨fun version htext => ?_, (if_neg hscheme).symm⟩
        exact hscheme (htext ▸ version.scheme_prefix)
      rw [RequestLine.parse_of_parts, herror]
      rfl

/-! ### Header lines -/

/-- What can be wrong with a header line. -/
inductive Field.Fault : Bytes → ProtocolError → Prop
  | folded {line : Bytes} (hpadding : line.head?.any isPadding) :
      Fault line (.invalidHeader "obsolete line folding")
  | nameless {line : Bytes} (hpadding : ¬ line.head?.any isPadding)
      (hsplits : ∀ name rest, ¬ Splits line name rest) :
      Fault line (.invalidHeader (Utf8.lossy line))
  | forbidden {line rest : Bytes} {name : String} (hsplits : Splits line name rest)
      (hrest : ∃ b ∈ rest, isForbiddenInValue b) : Fault line (.invalidHeader name)

/-- The padding around a value holds nothing that is forbidden. -/
theorem any_isForbiddenInValue_trim (rest : Bytes) :
    (Text.trimBy isPadding rest).any isForbiddenInValue ↔ ∃ b ∈ rest, isForbiddenInValue b := by
  obtain ⟨before, after, hsplit, hbefore, hafter, -⟩ := Text.trimBy_eq_iff.1
    (rfl : Text.trimBy isPadding rest = _)
  have hpadding : ∀ b, isPadding b → ¬ isForbiddenInValue b := by
    rintro b hb
    rcases isPadding_iff.1 hb with rfl | rfl <;> decide
  rw [List.any_eq_true]
  constructor
  · rintro ⟨b, hb, hforbidden⟩
    exact ⟨b, hsplit ▸ by simp [hb], hforbidden⟩
  · rintro ⟨b, hb, hforbidden⟩
    rw [hsplit, List.mem_append, List.mem_append] at hb
    rcases hb with hb | hb | hb
    · exact absurd hforbidden (hpadding b (hbefore b hb))
    · exact ⟨b, hb, hforbidden⟩
    · exact absurd hforbidden (hpadding b (hafter b hb))

/-- **A header line fails for its fault.** -/
theorem Field.parse_eq_error_iff {line : Bytes} {e : ProtocolError} :
    Field.parse line = .error e ↔ Field.Fault line e := by
  constructor
  · intro h
    obtain ⟨hpadding, herror⟩ | ⟨hpadding, hnone, herror⟩ | ⟨name, rest, hsplits⟩ :=
      Field.parse_cases line
    · cases h.symm.trans herror
      exact .folded hpadding
    · cases h.symm.trans herror
      exact .nameless hpadding hnone
    rw [Field.parse_of_splits hsplits] at h
    split at h
    case isTrue hany =>
      cases h
      exact .forbidden hsplits ((any_isForbiddenInValue_trim rest).1 hany)
    case isFalse => cases h
  · intro h
    cases h with
    | folded hpadding => exact if_pos hpadding
    | nameless hpadding hnone =>
      obtain ⟨hfolded, -⟩ | ⟨-, -, herror⟩ | ⟨name, rest, hsplits⟩ := Field.parse_cases line
      · exact absurd hfolded hpadding
      · exact herror
      · exact absurd hsplits (hnone name rest)
    | forbidden hsplits hrest =>
      rw [Field.parse_of_splits hsplits, if_pos ((any_isForbiddenInValue_trim _).2 hrest)]

/-- Which line decides the error of header lines: the first one with a fault among those that there
is room for, or the first one that there is no room for. -/
def Fields.Offend (room : Nat) (lines : List Bytes) (e : ProtocolError) : Prop :=
  ∃ (before : List FieldText) (line : Bytes), before.map FieldText.wire ++ [line] <+: lines ∧
    (before.length < room ∧ Field.Fault line e ∨ before.length = room ∧ e = .tooManyHeaders)

theorem Fields.offend_zero_iff {first : Bytes} {lines : List Bytes} {e : ProtocolError} :
    Fields.Offend 0 (first :: lines) e ↔ e = .tooManyHeaders := by
  constructor
  · rintro ⟨before, line, -, ⟨hlt, -⟩ | ⟨-, rfl⟩⟩
    · cases hlt
    · rfl
  · rintro rfl
    exact ⟨[], first, List.prefix_append [first] lines, .inr ⟨rfl, rfl⟩⟩

/-- Lines offend with the first one of them, or behind it. -/
theorem Fields.offend_succ_iff {room : Nat} {first : Bytes} {lines : List Bytes}
    {e : ProtocolError} :
    Fields.Offend (room + 1) (first :: lines) e ↔
      Field.Fault first e ∨ ∃ t : FieldText, first = t.wire ∧ Fields.Offend room lines e := by
  constructor
  · rintro ⟨_ | ⟨t, before⟩, line, hlines, hline⟩
    · obtain rfl := (List.cons_prefix_cons.1 hlines).1
      obtain ⟨-, hfault⟩ | ⟨hroom, -⟩ := hline
      · exact .inl hfault
      · cases hroom
    · obtain ⟨rfl, hrest⟩ := List.cons_prefix_cons.1 hlines
      refine .inr ⟨t, rfl, before, line, hrest, ?_⟩
      simpa only [List.length_cons, Nat.add_lt_add_iff_right, Nat.add_right_cancel_iff] using hline
  · rintro (hfault | ⟨t, rfl, before, line, hlines, hline⟩)
    · exact ⟨[], first, List.prefix_append [first] lines, .inl ⟨room.succ_pos, hfault⟩⟩
    · refine ⟨t :: before, line, List.cons_prefix_cons.2 ⟨rfl, hlines⟩, ?_⟩
      simpa only [List.length_cons, Nat.add_lt_add_iff_right, Nat.add_right_cancel_iff] using hline

/-- **Header lines fail for the line that decides.** -/
theorem Fields.parse_eq_error_iff {room : Nat} {lines : List Bytes} {e : ProtocolError} :
    Fields.parse room lines = .error e ↔ Fields.Offend room lines e := by
  induction lines generalizing room with
  | nil => simp [Fields.parse, Fields.Offend]
  | cons first lines ih =>
    cases room with
    | zero =>
      rw [Fields.offend_zero_iff, Fields.parse, Except.error.injEq]
      exact eq_comm
    | succ room =>
      rw [Fields.offend_succ_iff, Fields.parse]
      cases hfirst : Field.parse first with
      | error e' =>
        rw [← Field.parse_eq_error_iff, hfirst]
        constructor
        · intro h
          cases h
          exact .inl rfl
        · rintro (h | ⟨t, rfl, -⟩)
          · cases h
            rfl
          · cases hfirst.symm.trans (Field.parse_eq_ok_iff.2 ⟨t, rfl, rfl⟩)
      | ok field =>
        obtain ⟨t, rfl, rfl⟩ := Field.parse_eq_ok_iff.1 hfirst
        have hrest : (Fields.parse room lines).map (t.field :: ·) = .error e ↔
            Fields.parse room lines = .error e := by
          cases Fields.parse room lines <;> simp [Except.map]
        rw [← Field.parse_eq_error_iff, hfirst]
        refine hrest.trans (ih.trans ⟨fun hoffend => .inr ⟨t, rfl, hoffend⟩, ?_⟩)
        rintro (h | ⟨-, -, hoffend⟩)
        · cases h
        · exact hoffend

/-! ### Heads -/

/-- The status of an error: only a head that is too long or has too many fields is too large. -/
theorem ProtocolError.code_status (e : ProtocolError) :
    e.status.code = if e = .headersTooLarge ∨ e = .tooManyHeaders then 431 else 400 := by
  cases e <;> rfl

namespace Head

/-- A line decides the error of a head, behind lines that are well-formed: the request line or one
of the header lines that there is room for, by a fault, or the first header line without room. -/
inductive Offends : List Bytes → Bytes → ProtocolError → Prop
  | requestLine {line : Bytes} {e : ProtocolError} (hline : RequestLine.Fault line e) :
      Offends [] line e
  | field {first : RequestLineText} {fields : List FieldText} {line : Bytes} {e : ProtocolError}
      (hroom : fields.length < maxFields) (hline : Field.Fault line e) :
      Offends (first.wire :: fields.map FieldText.wire) line e
  | tooMany {first : RequestLineText} {fields : List FieldText} {line : Bytes}
      (hroom : fields.length = maxFields) :
      Offends (first.wire :: fields.map FieldText.wire) line .tooManyHeaders

/-- The lines of a head of the given size at the start of a buffer. -/
def linesOf (buffer : Bytes) (n : Nat) : List Bytes :=
  Bytes.lines ((buffer.take n).drop buffer.blankLines)

/-- Lines fail for the first one that offends. -/
theorem ofLines_eq_error_iff {lines : List Bytes} (hlines : lines ≠ []) {e : ProtocolError} :
    ofLines lines = .error e ↔ ∃ front line, front ++ [line] <+: lines ∧ Offends front line e := by
  obtain ⟨first, rest, rfl⟩ := List.exists_cons_of_ne_nil hlines
  rw [ofLines]
  cases hfirst : RequestLine.parse first with
  | error e' =>
    constructor
    · intro h
      cases h
      refine ⟨[], first, List.prefix_append [first] rest, .requestLine ?_⟩
      exact RequestLine.parse_eq_error_iff.1 hfirst
    · rintro ⟨front, line, hprefix, hoffends⟩
      cases hoffends with
      | requestLine hline =>
        obtain rfl := (List.cons_prefix_cons.1 hprefix).1
        cases hfirst.symm.trans (RequestLine.parse_eq_error_iff.2 hline)
        rfl
      | field | tooMany =>
        obtain rfl := (List.cons_prefix_cons.1 hprefix).1
        cases hfirst.symm.trans (RequestLine.parse_eq_ok_iff.2 ⟨_, rfl, rfl⟩)
  | ok read =>
    obtain ⟨t, rfl, rfl⟩ := RequestLine.parse_eq_ok_iff.1 hfirst
    have hfields : ofLines (t.wire :: rest) = .error e ↔
        Fields.parse maxFields rest = .error e := by
      rw [ofLines, hfirst]
      cases Fields.parse maxFields rest <;> simp [Except.map]
    rw [ofLines, hfirst] at hfields
    refine hfields.trans (Fields.parse_eq_error_iff.trans ⟨?_, ?_⟩)
    · rintro ⟨fields, line, hprefix, hline⟩
      refine ⟨t.wire :: fields.map FieldText.wire, line,
        List.cons_prefix_cons.2 ⟨rfl, hprefix⟩, ?_⟩
      obtain ⟨hroom, hfault⟩ | ⟨hroom, rfl⟩ := hline
      · exact .field hroom hfault
      · exact .tooMany hroom
    · rintro ⟨front, line, hprefix, hoffends⟩
      cases hoffends with
      | requestLine hline =>
        obtain rfl := (List.cons_prefix_cons.1 hprefix).1
        cases hfirst.symm.trans (RequestLine.parse_eq_error_iff.2 hline)
      | field hroom hline =>
        exact ⟨_, line, (List.cons_prefix_cons.1 hprefix).2, .inl ⟨hroom, hline⟩⟩
      | tooMany hroom => exact ⟨_, line, (List.cons_prefix_cons.1 hprefix).2, .inr ⟨hroom, rfl⟩⟩

variable {limit n : Nat} {buffer : Bytes}

/-- A head that is complete and not too long fails for the first line that offends. -/
theorem parse_eq_error_iff_offends (hsize : size? buffer = some n) (hlimit : n ≤ limit)
    {e : ProtocolError} : parse limit buffer = .error e ↔
      ∃ front line, front ++ [line] <+: linesOf buffer n ∧ Offends front line e := by
  have hlines : linesOf buffer n ≠ [] := Bytes.lines_ne_nil _
  rw [← ofLines_eq_error_iff hlines, parse_eq, hsize]
  dsimp only
  rw [if_neg (Nat.not_lt.2 hlimit), ← linesOf]
  cases ofLines (linesOf buffer n) <;> simp [Except.map]

/-- The size of a head does not depend on what followed it. -/
theorem size?_take (hsize : size? buffer = some n) : size? (buffer.take (n + 4)) = some n := by
  have hle := size?_le hsize
  have hsplit := List.take_append_drop (n + 4) buffer
  cases htake : size? (buffer.take (n + 4)) with
  | some m => rw [← size?_append htake (buffer.drop (n + 4)), hsplit, hsize]
  | none =>
    have hlt := length_lt_of_size?_append htake (hsplit.symm ▸ hsize)
    rw [List.length_take] at hlt
    omega

/-- A head that is complete and not too long is read exactly if it is in the grammar. -/
theorem exists_ok_iff_headText (hsize : size? buffer = some n) (hlimit : n ≤ limit) :
    (∃ read, parse limit buffer = .ok read) ↔ ∃ t : HeadText, buffer.take (n + 4) = t.wire := by
  constructor
  · rintro ⟨read, hread⟩
    obtain ⟨t, rest, rfl, -⟩ := exists_wire_of_parse hread
    rw [t.size?_wire_append, Option.some.injEq] at hsize
    exact ⟨t, by rw [← hsize, ← t.length_wire, List.take_left]⟩
  · rintro ⟨t, ht⟩
    have hlength : t.wire.length = n + 4 := by
      rw [← ht, List.length_take, Nat.min_eq_left (size?_le hsize)]
    rw [← List.take_append_drop (n + 4) buffer, ht, parse_wire_append, if_neg (by omega)]
    exact ⟨_, rfl⟩

/-- **The first offence decides.** A head that is complete, not too long, and not in the grammar
fails for one of its lines, behind which it does not matter what comes: this head fails with the
same error before any other octets, and so does any buffer with a head that begins with the same
lines up to that one. The status of an error is 431 if the head is too long or has too many fields,
and 400 otherwise. -/
theorem parse_of_not_headText (hsize : size? buffer = some n) (hlimit : n ≤ limit)
    (hgrammar : ∀ t : HeadText, buffer.take (n + 4) ≠ t.wire) :
    (∃ front line e, front ++ [line] <+: linesOf buffer n ∧ Offends front line e ∧
      parse limit buffer = .error e ∧
      (∀ more, parse limit (buffer.take (n + 4) ++ more) = .error e) ∧
      ∀ limit' n' buffer', size? buffer' = some n' → n' ≤ limit' →
        front ++ [line] <+: linesOf buffer' n' → parse limit' buffer' = .error e) ∧
    ∀ e : ProtocolError,
      e.status.code = if e = .headersTooLarge ∨ e = .tooManyHeaders then 431 else 400 := by
  refine ⟨?_, ProtocolError.code_status⟩
  cases hparse : parse limit buffer with
  | ok read =>
    obtain ⟨t, ht⟩ := (exists_ok_iff_headText hsize hlimit).1 ⟨read, hparse⟩
    exact absurd ht (hgrammar t)
  | error e =>
    obtain ⟨front, line, hprefix, hoffends⟩ := (parse_eq_error_iff_offends hsize hlimit).1 hparse
    refine ⟨front, line, e, hprefix, hoffends, rfl, fun more => ?_, ?_⟩
    · rw [parse_append_of_size? (size?_take hsize),
        ← parse_append_of_size? (size?_take hsize) (buffer.drop (n + 4)), List.take_append_drop,
        hparse]
    · intro limit' n' buffer' hsize' hlimit' hprefix'
      exact (parse_eq_error_iff_offends hsize' hlimit').2 ⟨front, line, hprefix', hoffends⟩

/-- A request whose second line has no colon. -/
def colonless : Bytes := Utf8.encode "GET / HTTP/1.1\r\nHost localhost\r\nA: \r\n\r\n"

/-- The line without a colon decides its error. -/
theorem parse_of_not_headText_colonless :
    size? colonless = some 35 ∧ 35 ≤ 100 ∧
    (∃ front line e, front ++ [line] <+: linesOf colonless 35 ∧ Offends front line e ∧
      parse 100 colonless = .error e ∧
      (∀ more, parse 100 (colonless.take 39 ++ more) = .error e) ∧
      ∀ limit' n' buffer', size? buffer' = some n' → n' ≤ limit' →
        front ++ [line] <+: linesOf buffer' n' → parse limit' buffer' = .error e) ∧
    ∀ e : ProtocolError,
      e.status.code = if e = .headersTooLarge ∨ e = .tooManyHeaders then 431 else 400 := by
  have hsize : size? colonless = some 35 := by decide
  have hlimit : 35 ≤ 100 := by decide
  have herror : parse 100 colonless = .error (.invalidHeader "Host localhost") := by rfl
  refine ⟨hsize, hlimit, parse_of_not_headText hsize hlimit fun t ht => ?_⟩
  obtain ⟨read, hread⟩ := (exists_ok_iff_headText hsize hlimit).2 ⟨t, ht⟩
  cases herror.symm.trans hread

end Head

end HttpEcho
