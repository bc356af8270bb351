import HttpEcho.Proofs.Head.Extent
import HttpEcho.Proofs.Head.Lines
import HttpEcho.Proofs.Text.Items
import HttpEcho.Proofs.Text.Utf8

/-!
# The grammar of request heads

A `HeadText` is a request head as it can be written: blank lines, a request line and header lines,
each header line with its padding. `HeadText.wire` are its octets and `HeadText.head` is the head
that they stand for. `Head.parse_eq_ok_iff_headText` says that the reader accepts exactly these
texts, gives their heads, and takes nothing that follows them.

The two directions meet in the lines. The reader looks for the end of a head with a window of four
octets and splits what stands before it at every CR LF; the lines of a text hold neither CR nor LF
and none is empty, so that the window fits for the first time behind the last line
(`search_headEnd`). Each of the leaf readers, for request lines and for header lines, is
characterised by an equivalence of its own.
-/

namespace HttpEcho

/-! ### Octets of a head -/

theorem isTokenOctet_lt {b : UInt8} (h : isTokenOctet b) : b.toNat < 0x80 := by
  have key : ∀ n < 256, isTokenOctet (UInt8.ofNat n) → n < 0x80 := by decide +kernel
  have := key b.toNat b.toNat_lt
  rw [UInt8.ofNat_toNat] at this
  exact this h

/-- Neither CR, LF, space, tab nor colon may stand in a token. -/
theorem isTokenOctet_ne {b : UInt8} (h : isTokenOctet b) :
    b ≠ Bytes.cr ∧ b ≠ Bytes.lf ∧ b ≠ 0x20 ∧ b ≠ 0x09 ∧ b ≠ 0x3A := by
  refine ⟨?_, ?_, ?_, ?_, ?_⟩
  all_goals
    rintro rfl
    exact absurd h (by decide +kernel)

/-- Neither CR nor LF is padding, a target octet or in a value. -/
theorem isPadding_iff {b : UInt8} : isPadding b ↔ b = 0x20 ∨ b = 0x09 := by
  simp [isPadding]

theorem isForbiddenInValue_iff {b : UInt8} :
    isForbiddenInValue b ↔ b = Bytes.cr ∨ b = Bytes.lf ∨ b = 0 := by
  simp [isForbiddenInValue, or_assoc]

/-! ### Texts -/

/-- A header line as it can be written: a name, a colon, and a value with padding around it. -/
structure FieldText where
  name : String
  before : Bytes
  value : Bytes
  after : Bytes
  name_ne_empty : name ≠ ""
  name_token : ∀ b ∈ Utf8.encode name, isTokenOctet b
  before_padding : ∀ b ∈ before, isPadding b
  after_padding : ∀ b ∈ after, isPadding b
  value_allowed : ∀ b ∈ value, ¬ isForbiddenInValue b
  value_head : ∀ b ∈ value.head?, ¬ isPadding b
  value_last : ∀ b ∈ value.getLast?, ¬ isPadding b

namespace FieldText

/-- The octets of a header line, without its line end. -/
def wire (t : FieldText) : Bytes :=
  Utf8.encode t.name ++ 0x3A :: (t.before ++ (t.value ++ t.after))

/-- The field that a header line stands for. -/
def field (t : FieldText) : Field := { name := t.name, value := t.value }

end FieldText

/-- A request line as it can be written. -/
structure RequestLineText where
  method : String
  target : String
  version : Version
  method_ne_empty : method ≠ ""
  method_token : ∀ b ∈ Utf8.encode method, isTokenOctet b
  target_ne_empty : target ≠ ""
  target_allowed : ∀ b ∈ Utf8.encode target, b ≠ 0x20 ∧ ¬ isControl b

namespace RequestLineText

/-- The octets of a request line, without its line end. -/
def wire (t : RequestLineText) : Bytes :=
  Utf8.encode t.method ++ 0x20 :: (Utf8.encode t.target ++ 0x20 :: Utf8.encode t.version.text)

/-- What a request line says. -/
def requestLine (t : RequestLineText) : RequestLine :=
  { method := .ofToken t.method, target := t.target, version := t.version }

end RequestLineText

/-- A request head as it can be written, with the blank lines in front of it. -/
structure HeadText where
  blankLines : Nat
  line : RequestLineText
  fields : List FieldText
  length_fields_le : fields.length ≤ maxFields

namespace HeadText

/-- The octets of a head: blank lines, the lines with CR LF between them, and the ending. -/
def wire (t : HeadText) : Bytes :=
  Bytes.blank t.blankLines ++
    (t.line.wire ++ ((t.fields.flatMap fun f => Bytes.crlf ++ f.wire) ++ headEnd))

/-- The head that a text stands for. -/
def head (t : HeadText) : Head :=
  { method := .ofToken t.line.method
    target := t.line.target
    version := t.line.version
    fields := t.fields.map FieldText.field }

end HeadText

/-! ### Reading lines -/

namespace FieldText

theorem wire_ne_nil (t : FieldText) : t.wire ≠ [] := by
  simp [wire]

end FieldText

/-- A line that begins with a name and a colon. -/
structure Field.Splits (line : Bytes) (name : String) (rest : Bytes) : Prop where
  line_eq : line = Utf8.encode name ++ 0x3A :: rest
  name_ne_empty : name ≠ ""
  name_token : ∀ b ∈ Utf8.encode name, isTokenOctet b

/-- A name does not begin with padding. -/
theorem Field.Splits.not_padding {line rest : Bytes} {name : String} (h : Splits line name rest) :
    ¬ line.head?.any isPadding := by
  have hne : Utf8.encode name ≠ [] := mt Utf8.encode_eq_nil_iff.1 h.name_ne_empty
  obtain ⟨b, tail, hname⟩ := List.exists_cons_of_ne_nil hne
  have hb := isTokenOctet_ne (h.name_token b (hname ▸ List.mem_cons_self))
  simp [h.line_eq, hname, isPadding, hb.2.2.1, hb.2.2.2.1]

/-- Behind a name and a colon it is the value that decides. -/
theorem Field.parse_of_splits {line rest : Bytes} {name : String} (h : Splits line name rest) :
    Field.parse line =
      if (Text.trimBy isPadding rest).any isForbiddenInValue then .error (.invalidHeader name)
      else .ok { name, value := Text.trimBy isPadding rest } := by
  have hpadding := h.not_padding
  obtain ⟨rfl, hempty, htoken⟩ := h
  have hne : Utf8.encode name ≠ [] := mt Utf8.encode_eq_nil_iff.1 hempty
  have hcolon : Bytes.search [0x3A] (Utf8.encode name ++ 0x3A :: rest) =
      some (Utf8.encode name).length :=
    Bytes.search_singleton_eq_some_iff.2
      ⟨_, _, rfl, fun hmem => (isTokenOctet_ne (htoken _ hmem)).2.2.2.2 rfl, rfl⟩
  have hdrop : (Utf8.encode name ++ 0x3A :: rest).drop ((Utf8.encode name).length + 1) = rest := by
    rw [← List.drop_drop, List.drop_left, List.drop_one, List.tail_cons]
  have hname : ¬ ((Utf8.encode name).isEmpty || !(Utf8.encode name).all isTokenOctet) := by
    simpa [hne] using htoken
  rw [Field.parse, if_neg hpadding]
  simp only [hcolon, List.take_left, hdrop, if_neg hname, Utf8.lossy_encode]

/-- What a header line may be: one that continues the line before it, one without a name, or a name
with what follows its colon. -/
theorem Field.parse_cases (line : Bytes) :
    (line.head?.any isPadding ∧
      Field.parse line = .error (.invalidHeader "obsolete line folding")) ∨
    (¬ line.head?.any isPadding ∧ (∀ name rest, ¬ Splits line name rest) ∧
      Field.parse line = .error (.invalidHeader (Utf8.lossy line))) ∨
    ∃ name rest, Splits line name rest := by
  by_cases hpadding : line.head?.any isPadding
  · exact .inl ⟨hpadding, if_pos hpadding⟩
  by_cases hsplits : ∃ name rest, Splits line name rest
  · exact .inr (.inr hsplits)
  refine .inr (.inl ⟨hpadding, fun name rest h => hsplits ⟨name, rest, h⟩, ?_⟩)
  rw [Field.parse, if_neg hpadding]
  cases hcolon : Bytes.search [0x3A] line with
  | none => rfl
  | some colon =>
    obtain ⟨octets, rest, rfl, -, rfl⟩ := Bytes.search_singleton_eq_some_iff.1 hcolon
    dsimp only
    rw [List.take_left]
    refine if_pos (Decidable.byContradiction fun hname => ?_)
    simp only [Bool.or_eq_true, not_or, Bool.not_eq_true', Bool.not_eq_false,
      List.isEmpty_iff] at hname
    obtain ⟨hne, htoken⟩ := hname
    have htoken := List.all_eq_true.1 htoken
    obtain ⟨name, rfl⟩ := Utf8.exists_encode_of_ascii fun b hb => isTokenOctet_lt (htoken b hb)
    exact hsplits ⟨name, rest, rfl, mt Utf8.encode_eq_nil_iff.2 hne, htoken⟩

/-- A field is divided at its first colon. -/
theorem FieldText.splits_wire (t : FieldText) :
    Field.Splits t.wire t.name (t.before ++ (t.value ++ t.after)) :=
  ⟨rfl, t.name_ne_empty, t.name_token⟩

/-- **Header lines**: a line is read as a field exactly if it can be written for that field. -/
theorem Field.parse_eq_ok_iff {line : Bytes} {field : Field} :
    Field.parse line = .ok field ↔ ∃ t : FieldText, line = t.wire ∧ field = t.field := by
  constructor
  · intro h
    obtain ⟨-, herror⟩ | ⟨-, -, herror⟩ | ⟨name, rest, hsplits⟩ := Field.parse_cases line
    · cases h.symm.trans herror
    · cases h.symm.trans herror
    rw [Field.parse_of_splits hsplits] at h
    split at h
    · cases h
    rename_i hvalue
    obtain ⟨rfl, hne, htoken⟩ := hsplits
    obtain ⟨before, after, hsplit, hbefore, hafter, hhead, hlast⟩ := Text.trimBy_eq_iff.1
      (rfl : Text.trimBy isPadding rest = _)
    refine ⟨⟨name, before, Text.trimBy isPadding rest, after, hne, htoken, hbefore, hafter,
      fun b hb hforbidden => ?_, hhead, hlast⟩, ?_, (Except.ok.inj h).symm⟩
    · exact hvalue (List.any_eq_true.2 ⟨b, hb, hforbidden⟩)
    · simp only [FieldText.wire, ← hsplit]
  · rintro ⟨t, rfl, rfl⟩
    have htrim : Text.trimBy isPadding (t.before ++ (t.value ++ t.after)) = t.value :=
      Text.trimBy_eq_iff.2 ⟨_, _, rfl, t.before_padding, t.after_padding, t.value_head,
        t.value_last⟩
    have hvalue : ¬ t.value.any isForbiddenInValue := by
      rw [List.any_eq_true]
      rintro ⟨b, hb, hforbidden⟩
      exact t.value_allowed b hb hforbidden
    rw [Field.parse_of_splits t.splits_wire, htrim, if_neg hvalue]
    rfl

/-- A version is read from its own text alone. -/
theorem Version.parse_eq_ok_iff {line text : List Char} {version : Version} :
    Version.parse line text = .ok version ↔ text = version.text.toList := by
  unfold Version.parse
  split
  case isTrue h =>
    subst h
    cases version <;> simp [Version.text]
  case isFalse h11 =>
    split
    case isTrue h =>
      subst h
      cases version <;> simp [Version.text]
    case isFalse h10 =>
      have hne : text ≠ version.text.toList := by
        cases version
        · exact h10
        · exact h11
      split <;> simp [hne]

/-- A method, a target and any text in the place of the version, with one space between them. -/
structure RequestLineParts where
  method : String
  target : String
  version : String
  method_ne_empty : method ≠ ""
  method_token : ∀ b ∈ Utf8.encode method, isTokenOctet b
  target_ne_empty : target ≠ ""
  target_allowed : ∀ b ∈ Utf8.encode target, b ≠ 0x20 ∧ ¬ isControl b
  version_allowed : ' ' ∉ version.toList

/-- The characters of a request line. -/
def RequestLineParts.chars (t : RequestLineParts) : List Char :=
  t.method.toList ++ ' ' :: (t.target.toList ++ ' ' :: t.version.toList)

/-- A request line that can be written has the parts of one. -/
def RequestLineText.parts (t : RequestLineText) : RequestLineParts :=
  { t with
    version := t.version.text
    version_allowed := by cases t.version <;> decide }

private theorem encodeChars_space_cons (cs : List Char) :
    Utf8.encodeChars (' ' :: cs) = 0x20 :: Utf8.encodeChars cs := rfl

private theorem space_notMem {s : String} (h : ∀ b ∈ Utf8.encode s, b ≠ 0x20) : ' ' ∉ s.toList := by
  intro hmem
  have hb : (0x20 : UInt8) ∈ Utf8.encodeChars s.toList :=
    (Utf8.mem_encodeChars_iff (by decide)).2 hmem
  exact h _ hb rfl

theorem RequestLineText.wire_eq_encodeChars (t : RequestLineText) :
    t.wire = Utf8.encodeChars t.parts.chars := by
  rw [RequestLineParts.chars, Utf8.encodeChars_append, encodeChars_space_cons,
    Utf8.encodeChars_append, encodeChars_space_cons]
  rfl

/-- In a line with a method and a target it is the version that decides. -/
theorem RequestLine.parse_of_parts (t : RequestLineParts) :
    RequestLine.parse (Utf8.encodeChars t.chars) =
      (Version.parse t.chars t.version.toList).map fun version =>
        { method := .ofToken t.method, target := t.target, version } := by
  have hpieces : Text.pieces ' ' t.chars =
      [t.method.toList, t.target.toList, t.version.toList] := by
    refine Text.pieces_eq_three_iff.2 ⟨rfl, ?_, ?_, t.version_allowed⟩
    · exact space_notMem fun b hb => (isTokenOctet_ne (t.method_token b hb)).2.2.1
    · exact space_notMem fun b hb => (t.target_allowed b hb).1
  have hparts : ¬ (t.method.toList.isEmpty || t.target.toList.isEmpty
      || !(Utf8.encodeChars t.method.toList).all isTokenOctet
      || (Utf8.encodeChars t.target.toList).any isControl) := by
    simp only [Bool.or_eq_true, not_or, Bool.not_eq_true', Bool.not_eq_false,
      List.isEmpty_iff, String.toList_eq_nil_iff]
    refine ⟨⟨⟨t.method_ne_empty, t.target_ne_empty⟩, List.all_eq_true.2 t.method_token⟩, ?_⟩
    rw [List.any_eq_true]
    rintro ⟨b, hb, hc⟩
    exact (t.target_allowed b hb).2 hc
  rw [RequestLine.parse, Utf8.decode?_encodeChars]
  simp only [hpieces, if_neg hparts, String.ofList_toList]

/-- What a request line may be: one that is not UTF-8, one without a method or a target, or the
parts of a request line. -/
theorem RequestLine.parse_cases (line : Bytes) :
    (Utf8.decode? line = none ∧
      RequestLine.parse line = .error (.invalidRequestLine "Invalid UTF-8 in request line")) ∨
    (∃ chars, line = Utf8.encodeChars chars ∧ (∀ t : RequestLineParts, chars ≠ t.chars) ∧
      RequestLine.parse line = .error (.invalidRequestLine (String.ofList chars))) ∨
    ∃ t : RequestLineParts, line = Utf8.encodeChars t.chars := by
  cases hdecode : Utf8.decode? line with
  | none =>
    rw [RequestLine.parse, hdecode]
    exact .inl ⟨rfl, rfl⟩
  | some chars =>
    obtain rfl := Utf8.decode?_eq_some_iff.1 hdecode
    by_cases hparts : ∃ t : RequestLineParts, chars = t.chars
    · obtain ⟨t, rfl⟩ := hparts
      exact .inr (.inr ⟨t, rfl⟩)
    refine .inr (.inl ⟨chars, rfl, fun t ht => hparts ⟨t, ht⟩, ?_⟩)
    rw [RequestLine.parse, hdecode]
    dsimp only
    split
    case h_2 => rfl
    rename_i method target version hpieces
    -- from here on the pieces are strings
    obtain ⟨method, rfl⟩ : ∃ s : String, method = s.toList := ⟨_, String.toList_ofList.symm⟩
    obtain ⟨target, rfl⟩ : ∃ s : String, target = s.toList := ⟨_, String.toList_ofList.symm⟩
    obtain ⟨version, rfl⟩ : ∃ s : String, version = s.toList := ⟨_, String.toList_ofList.symm⟩
    obtain ⟨hsplit, -, htarget, hversion⟩ := Text.pieces_eq_three_iff.1 hpieces
    refine if_pos (Decidable.byContradiction fun hgood => ?_)
    simp only [Bool.or_eq_true, not_or, Bool.not_eq_true', Bool.not_eq_false,
      List.isEmpty_iff, String.toList_eq_nil_iff] at hgood
    obtain ⟨⟨⟨hmethod, hne⟩, htoken⟩, hcontrol⟩ := hgood
    refine hparts ⟨⟨method, target, version, hmethod, List.all_eq_true.1 htoken, hne, ?_,
      hversion⟩, hsplit⟩
    intro b hb
    refine ⟨?_, fun hc => hcontrol (List.any_eq_true.2 ⟨b, hb, hc⟩)⟩
    rintro rfl
    exact htarget ((Utf8.mem_encodeChars_iff (by decide)).1 hb)

/-- **Request lines**: a line is read as a request line exactly if it can be written for it. -/
theorem RequestLine.parse_eq_ok_iff {line : Bytes} {read : RequestLine} :
    RequestLine.parse line = .ok read ↔
      ∃ t : RequestLineText, line = t.wire ∧ read = t.requestLine := by
  constructor
  · intro h
    obtain ⟨-, herror⟩ | ⟨_, -, -, herror⟩ | ⟨t, rfl⟩ := RequestLine.parse_cases line
    · cases h.symm.trans herror
    · cases h.symm.trans herror
    rw [RequestLine.parse_of_parts] at h
    cases hversion : Version.parse t.chars t.version.toList with
    | error e =>
      rw [hversion] at h
      cases h
    | ok v =>
      rw [hversion] at h
      refine ⟨⟨t.method, t.target, v, t.method_ne_empty, t.method_token, t.target_ne_empty,
        t.target_allowed⟩, ?_, (Except.ok.inj h).symm⟩
      rw [RequestLineText.wire_eq_encodeChars, RequestLineParts.chars,
        Version.parse_eq_ok_iff.1 hversion]
      rfl
  · rintro ⟨t, rfl, rfl⟩
    have hversion : Version.parse t.parts.chars t.parts.version.toList = .ok t.version :=
      Version.parse_eq_ok_iff.2 rfl
    rw [t.wire_eq_encodeChars, RequestLine.parse_of_parts, hversion]
    rfl

/-- The fields of a head are read from their lines, as many as there is room for. -/
theorem Fields.parse_eq_ok_iff {room : Nat} {lines : List Bytes} {fields : Fields} :
    Fields.parse room lines = .ok fields ↔ lines.length ≤ room ∧
      ∃ ts : List FieldText, lines = ts.map FieldText.wire ∧ fields = ts.map FieldText.field := by
  induction lines generalizing room fields with
  | nil =>
    constructor
    · intro h
      rw [Fields.parse] at h
      exact ⟨Nat.zero_le _, [], rfl, (Except.ok.inj h).symm⟩
    · rintro ⟨-, ts, hts, rfl⟩
      obtain rfl := List.map_eq_nil_iff.1 hts.symm
      rw [Fields.parse]
      rfl
  | cons line lines ih =>
    cases room with
    | zero => simp [Fields.parse]
    | succ room =>
      rw [Fields.parse]
      constructor
      · intro h
        split at h
        · cases h
        rename_i field hfield
        obtain ⟨t, rfl, rfl⟩ := Field.parse_eq_ok_iff.1 hfield
        cases hrest : Fields.parse room lines with
        | error e =>
          rw [hrest] at h
          cases h
        | ok rest =>
          rw [hrest] at h
          obtain ⟨hle, ts, rfl, rfl⟩ := ih.1 hrest
          refine ⟨Nat.succ_le_succ hle, t :: ts, rfl, (Except.ok.inj h).symm⟩
      · rintro ⟨hle, ts, hts, rfl⟩
        cases ts with
        | nil => cases hts
        | cons t ts =>
          obtain ⟨rfl, rfl⟩ := List.cons.inj hts
          rw [Field.parse_eq_ok_iff.2 ⟨t, rfl, rfl⟩]
          have hrest := ih.2 ⟨Nat.le_of_succ_le_succ hle, ts, rfl, rfl⟩
          simp only [hrest]
          rfl

/-! ### The lines of a head -/

/-- Text lines: none is empty, and none has a CR or an LF in it. -/
def IsLine (line : Bytes) : Prop := line ≠ [] ∧ Bytes.cr ∉ line ∧ Bytes.lf ∉ line

private theorem IsLine.noCrlf {line : Bytes} (h : IsLine line) : ¬ Bytes.crlf <:+: line :=
  fun hcrlf => h.2.1 (hcrlf.subset List.mem_cons_self)

theorem FieldText.isLine_wire (t : FieldText) : IsLine t.wire := by
  have hpadding : ∀ b, isPadding b → b ≠ Bytes.cr ∧ b ≠ Bytes.lf := by
    rintro b hb
    rcases isPadding_iff.1 hb with rfl | rfl <;> decide
  have hmem : ∀ b ∈ t.wire, b ≠ Bytes.cr ∧ b ≠ Bytes.lf := by
    intro b hb
    simp only [wire, List.mem_append, List.mem_cons] at hb
    rcases hb with hb | rfl | hb | hb | hb
    · exact ⟨(isTokenOctet_ne (t.name_token b hb)).1, (isTokenOctet_ne (t.name_token b hb)).2.1⟩
    · decide
    · exact hpadding b (t.before_padding b hb)
    · have hvalue := mt isForbiddenInValue_iff.2 (t.value_allowed b hb)
      exact ⟨fun h => hvalue (.inl h), fun h => hvalue (.inr (.inl h))⟩
    · exact hpadding b (t.after_padding b hb)
  exact ⟨t.wire_ne_nil, fun h => (hmem _ h).1 rfl, fun h => (hmem _ h).2 rfl⟩

private theorem RequestLineText.isLine_wire (t : RequestLineText) : IsLine t.wire := by
  have hmem : ∀ b ∈ t.wire, b ≠ Bytes.cr ∧ b ≠ Bytes.lf := by
    intro b hb
    simp only [wire, List.mem_append, List.mem_cons] at hb
    rcases hb with hb | rfl | hb | rfl | hb
    · exact ⟨(isTokenOctet_ne (t.method_token b hb)).1, (isTokenOctet_ne (t.method_token b hb)).2.1⟩
    · decide
    · have hcontrol := (t.target_allowed b hb).2
      constructor
      all_goals
        rintro rfl
        exact hcontrol (by decide)
    · decide
    · have : ∀ v : Version, ∀ c ∈ Utf8.encode v.text, c ≠ Bytes.cr ∧ c ≠ Bytes.lf := by
        rintro (_ | _) <;> decide +kernel
      exact this t.version b hb
  exact ⟨by simp [wire], fun h => (hmem _ h).1 rfl, fun h => (hmem _ h).2 rfl⟩

/-- Lines with CR LF between them are divided there. -/
theorem lines_of_isLine {line : Bytes} {others : List Bytes}
    (h : ∀ l ∈ line :: others, IsLine l) :
    Bytes.lines (line ++ others.flatMap (Bytes.crlf ++ ·)) = line :: others := by
  induction others generalizing line with
  | nil =>
    rw [List.flatMap_nil, List.append_nil]
    exact Bytes.lines_of_noCrlf (h line List.mem_cons_self).noCrlf
  | cons next others ih =>
    rw [List.flatMap_cons, List.append_assoc,
      Bytes.lines_append_crlf (h line List.mem_cons_self).noCrlf,
      ih fun l hl => h l (List.mem_cons_of_mem _ hl)]

/-- **The window of four octets** fits for the first time behind the last line. -/
theorem search_headEnd {line : Bytes} {others : List Bytes}
    (h : ∀ l ∈ line :: others, IsLine l) (rest : Bytes) :
    Bytes.search headEnd (line ++ (others.flatMap (Bytes.crlf ++ ·) ++ (headEnd ++ rest))) =
      some (line ++ others.flatMap (Bytes.crlf ++ ·)).length := by
  have hlines : ∀ l ∈ Bytes.lines (line ++ others.flatMap (Bytes.crlf ++ ·)), l ≠ [] := by
    rw [lines_of_isLine h]
    exact fun l hl => (h l hl).1
  rw [← List.append_assoc]
  exact Head.search_headEnd_of_lines hlines rest

namespace HeadText

private theorem isLine_of_mem (t : HeadText) :
    ∀ l ∈ t.line.wire :: t.fields.map FieldText.wire, IsLine l := by
  intro l hl
  rcases List.mem_cons.1 hl with rfl | hl
  · exact t.line.isLine_wire
  · obtain ⟨f, -, rfl⟩ := List.mem_map.1 hl
    exact f.isLine_wire

/-- The lines of a head with CR LF between them. -/
def body (t : HeadText) : Bytes :=
  t.line.wire ++ (t.fields.map FieldText.wire).flatMap (Bytes.crlf ++ ·)

theorem wire_eq (t : HeadText) : t.wire = Bytes.blank t.blankLines ++ (t.body ++ headEnd) := by
  rw [wire, body, List.flatMap_map, List.append_assoc]

theorem length_wire (t : HeadText) : t.wire.length = 2 * t.blankLines + t.body.length + 4 := by
  rw [wire_eq, List.length_append, List.length_append, Bytes.length_blank, Nat.add_assoc]
  rfl

/-- The request line follows the blank lines at once. -/
theorem not_crlf_prefix (t : HeadText) (rest : Bytes) :
    ¬ Bytes.crlf <+: t.body ++ (headEnd ++ rest) := by
  obtain ⟨b, tail, hb⟩ := List.exists_cons_of_ne_nil t.line.isLine_wire.1
  intro hp
  rw [body, hb] at hp
  refine t.line.isLine_wire.2.1 ?_
  rw [hb, (List.cons_prefix_cons.1 hp).1]
  exact List.mem_cons_self

/-- The size of a head that stands at the start of a buffer. -/
theorem size?_wire_append (t : HeadText) (rest : Bytes) :
    Head.size? (t.wire ++ rest) = some (2 * t.blankLines + t.body.length) := by
  rw [wire_eq, List.append_assoc, List.append_assoc,
    Head.size?_blank_append (t.not_crlf_prefix rest), body, List.append_assoc,
    search_headEnd t.isLine_of_mem]
  rfl

end HeadText

namespace Head

/-- A head is read from the lines of a text. -/
theorem ofLines_eq_ok_iff {lines : List Bytes} {head : Head} :
    ofLines lines = .ok head ↔
      ∃ t : HeadText, lines = t.line.wire :: t.fields.map FieldText.wire ∧ head = t.head := by
  cases lines with
  | nil => simp [ofLines]
  | cons first rest =>
    rw [ofLines]
    constructor
    · intro h
      split at h
      · cases h
      rename_i read hread
      obtain ⟨line, rfl, rfl⟩ := RequestLine.parse_eq_ok_iff.1 hread
      cases hfields : Fields.parse maxFields rest with
      | error e =>
        rw [hfields] at h
        cases h
      | ok fields =>
        rw [hfields] at h
        obtain ⟨hle, ts, rfl, rfl⟩ := Fields.parse_eq_ok_iff.1 hfields
        rw [List.length_map] at hle
        exact ⟨⟨0, line, ts, hle⟩, rfl, (Except.ok.inj h).symm⟩
    · rintro ⟨t, ht, rfl⟩
      obtain ⟨rfl, rfl⟩ := List.cons.inj ht
      have hfields : Fields.parse maxFields (t.fields.map FieldText.wire) =
          .ok (t.fields.map FieldText.field) :=
        Fields.parse_eq_ok_iff.2 ⟨by rw [List.length_map]; exact t.length_fields_le, t.fields,
          rfl, rfl⟩
      rw [RequestLine.parse_eq_ok_iff.2 ⟨t.line, rfl, rfl⟩]
      simp only [hfields]
      rfl

/-- A text is read as its head, if it is not too long, whatever follows it. -/
theorem parse_wire_append (t : HeadText) (limit : Nat) (rest : Bytes) :
    parse limit (t.wire ++ rest) =
      if limit + 4 < t.wire.length then .error .headersTooLarge
      else .ok (t.head, t.wire.length) := by
  have hblank : (t.wire ++ rest).blankLines = 2 * t.blankLines := by
    rw [t.wire_eq, List.append_assoc, List.append_assoc,
      Bytes.blankLines_blank_append (t.not_crlf_prefix rest)]
  have htext : ((t.wire ++ rest).take (2 * t.blankLines + t.body.length)).drop
      (2 * t.blankLines) = t.body := by
    rw [t.wire_eq, List.append_assoc, List.append_assoc, ← Bytes.length_blank, List.take_append,
      List.take_of_length_le (Nat.le_add_right _ _), List.drop_left, Nat.add_sub_cancel_left,
      List.take_left]
  have hlines : Bytes.lines t.body = t.line.wire :: t.fields.map FieldText.wire :=
    lines_of_isLine t.isLine_of_mem
  rw [parse_eq, t.size?_wire_append, t.length_wire]
  simp only [hblank, htext, hlines, ofLines_eq_ok_iff.2 ⟨t, rfl, rfl⟩]
  by_cases h : limit < 2 * t.blankLines + t.body.length
  · rw [if_pos h, if_pos (by omega)]
  · rw [if_neg h, if_neg (by omega)]
    rfl

/-- The beginning of a text is an incomplete head, unless it is too long by itself. -/
theorem parse_of_append_eq_wire (t : HeadText) {limit : Nat} {buffer stream rest : Bytes}
    (h : buffer ++ stream = t.wire ++ rest) (hlt : buffer.length < t.wire.length)
    (hlimit : buffer.length ≤ limit) : parse limit buffer = .error .incomplete := by
  have hsize : size? buffer = none := by
    cases hbuffer : size? buffer with
    | none => rfl
    | some n =>
      -- a size that is known now is that of the whole head, whose ending is not there
      have hwhole := size?_append hbuffer stream
      rw [h, t.size?_wire_append, Option.some.injEq] at hwhole
      have hle := size?_le hbuffer
      rw [t.length_wire] at hlt
      omega
  rw [parse_eq, hsize]
  dsimp only
  rw [if_neg (Nat.not_lt.2 hlimit)]

/-- A buffer in which a head is read begins with a text of it. -/
theorem exists_wire_of_parse {limit n : Nat} {buffer : Bytes} {head : Head}
    (h : parse limit buffer = .ok (head, n)) :
    ∃ (t : HeadText) (rest : Bytes), buffer = t.wire ++ rest ∧ n = t.wire.length ∧
      n ≤ limit + 4 ∧ head = t.head := by
  rw [parse_eq] at h
  split at h
  · cases h
  rename_i m hm
  split at h
  · cases h
  rename_i hlimit
  cases hlines : ofLines (Bytes.lines ((buffer.take m).drop buffer.blankLines)) with
  | error e =>
    rw [hlines] at h
    cases h
  | ok read =>
    rw [hlines] at h
    obtain ⟨rfl, rfl⟩ := Prod.mk.inj (Except.ok.inj h)
    obtain ⟨k, rest, size, rfl, rfl, hrest, hsize⟩ := exists_blank_of_size? hm
    obtain ⟨t, ht, rfl⟩ := ofLines_eq_ok_iff.1 hlines
    have htext : ((Bytes.blank k ++ rest).take (2 * k + size)).drop
        (Bytes.blank k ++ rest).blankLines = rest.take size := text_blank_append hrest k size
    -- the lines of the text make it up again
    have hbody : rest.take size = t.body := by
      rw [htext] at ht
      rw [← Bytes.intercalate_lines (rest.take size), ht, Bytes.intercalate_crlf_cons]
      rfl
    have hsplit := Bytes.eq_append_of_search hsize
    rw [hbody] at hsplit
    have hlen : t.body.length = size := by
      have := (Bytes.search_eq_some_iff.1 hsize).1
      rw [← hbody, List.length_take, Nat.min_eq_left this]
    -- the lines do not tell how many blank lines stood in front of them
    let u : HeadText := { t with blankLines := k }
    have hwire : u.wire = Bytes.blank k ++ (t.body ++ headEnd) := u.wire_eq
    refine ⟨u, rest.drop (size + headEnd.length), ?_, ?_, by omega, rfl⟩
    · rw [hwire, List.append_assoc, List.append_assoc, ← hsplit]
    · rw [u.length_wire, ← hlen]
      rfl

/-- The method of a head that was read is the one that its token names. -/
theorem method_eq_ofToken {limit n : Nat} {buffer : Bytes} {head : Head}
    (h : parse limit buffer = .ok (head, n)) : head.method = .ofToken head.method.token := by
  obtain ⟨t, rest, -, -, -, rfl⟩ := exists_wire_of_parse h
  exact congrArg Method.ofToken (Method.token_ofToken t.line.method).symm

/-- **The grammar of heads.** A buffer is read as a head exactly if it begins with a text of that
head, with all blank lines in front of it, that is no longer than the limit allows; what is read is
the text, octet by octet. And every text of a head is read back, whatever follows it, unless it is
too long. -/
theorem parse_eq_ok_iff_headText :
    (∀ (limit : Nat) (buffer : Bytes) (head : Head) (n : Nat),
      parse limit buffer = .ok (head, n) ↔
        ∃ t : HeadText, buffer.take n = t.wire ∧ n = t.wire.length ∧ n ≤ limit + 4 ∧
          ¬ Bytes.crlf <+: buffer.drop (2 * t.blankLines) ∧
          head = t.head ∧ head.method.token = t.line.method) ∧
    (∀ (t : HeadText) (limit : Nat) (rest : Bytes),
      parse limit (t.wire ++ rest) = .ok (t.head, t.wire.length) ↔
        t.wire.length ≤ limit + 4) := by
  have hread : ∀ (t : HeadText) (limit : Nat) (rest : Bytes),
      parse limit (t.wire ++ rest) = .ok (t.head, t.wire.length) ↔
        t.wire.length ≤ limit + 4 := by
    intro t limit rest
    rw [parse_wire_append]
    split
    case isTrue h => simpa using h
    case isFalse h => simpa using h
  refine ⟨fun limit buffer head n => ⟨fun h => ?_, ?_⟩, hread⟩
  · obtain ⟨t, rest, rfl, rfl, hn, rfl⟩ := exists_wire_of_parse h
    refine ⟨t, List.take_left, rfl, hn, ?_, rfl, Method.token_ofToken _⟩
    rw [t.wire_eq, List.append_assoc, List.append_assoc, ← Bytes.length_blank, List.drop_left]
    exact t.not_crlf_prefix rest
  · rintro ⟨t, hwire, rfl, hn, -, rfl, -⟩
    rw [← List.take_append_drop t.wire.length buffer, hwire]
    exact (hread t limit _).2 hn

end Head

end HttpEcho
