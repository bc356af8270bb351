import HttpEcho.Body.SizeLine
import HttpEcho.Proofs.Bytes
import HttpEcho.Proofs.Text.Items
import HttpEcho.Proofs.Text.Numeral
import HttpEcho.Proofs.Text.Utf8

/-!
# Size lines

`SizeLine.Announces` says what may stand in front of the extension of a chunk size line, and which
size it announces; a size is read exactly if it is announced (`SizeLine.size?_eq_some_iff`).

A `SizeText` is a well-formed chunk size line: one to sixteen hexadecimal digits, blanks around them
and an extension after them. However much of such a line is there, it is read as its size once it is
complete, and as nothing before (`SizeText.parse_of_append_eq`).
-/

namespace HttpEcho

/-- No blank is a digit. -/
theorem Text.digit?_of_isBlank {c : Char} (h : isBlank c) : digit? 16 c = none := by
  have hall : ∀ n ∈ blankCodePoints, digit? 16 (Char.ofNat n) = none := by decide
  have hc := hall c.toNat (List.contains_iff_mem.1 h)
  rwa [Char.ofNat_toNat] at hc

/-- A numeral has at least one character, and all of them are digits. -/
theorem Text.digits_of_numeral? {base n : Nat} {s : List Char} (h : numeral? base s = some n) :
    s ≠ [] ∧ ∀ c ∈ s, digit? base c ≠ none := by
  obtain ⟨hne, values, hvalues, -⟩ := numeral?_eq_some_iff.1 h
  refine ⟨hne, ?_⟩
  clear h hne
  induction hvalues with
  | nil => exact nofun
  | cons hvalue _ ih =>
    exact List.forall_mem_cons.2 ⟨Option.ne_none_iff_exists'.2 ⟨_, hvalue⟩, ih⟩

namespace SizeLine

/-- The text in front of an extension announces a size: it is one to sixteen hexadecimal digits that
denote the size, with blanks around them. -/
def Announces (text : Bytes) (size : Nat) : Prop :=
  ∃ before digits after : List Char,
    text = Utf8.encodeChars (before ++ (digits ++ after)) ∧ (∀ c ∈ before, Text.isBlank c) ∧
      (∀ c ∈ after, Text.isBlank c) ∧ digits.length ≤ 16 ∧ Text.DenotesHex digits size

/-- **A size is read exactly if it is announced.** -/
theorem size?_eq_some_iff {text : Bytes} {size : Nat} :
    size? text = some size ↔ Announces text size := by
  constructor
  · intro h
    rw [size?] at h
    cases hchars : Utf8.decode? text with
    | none =>
      rw [hchars] at h
      cases h
    | some chars =>
      rw [hchars] at h
      dsimp only at h
      split at h
      · cases h
      rename_i hlength
      obtain ⟨before, after, hsplit, hbefore, hafter, -⟩ := Text.trimBy_eq_iff.1
        (rfl : Text.trim chars = _)
      refine ⟨before, Text.trim chars, after, ?_, hbefore, hafter, Nat.le_of_not_lt hlength,
        Text.hexadecimal?_eq_some_iff.1 h⟩
      rw [← hsplit]
      exact Utf8.decode?_eq_some_iff.1 hchars
  · rintro ⟨before, digits, after, rfl, hbefore, hafter, hlength, hdenotes⟩
    have hsize := Text.hexadecimal?_eq_some_iff.2 hdenotes
    have hdigit : ∀ c ∈ digits, ¬ Text.isBlank c := fun c hc hblank =>
      (Text.digits_of_numeral? hsize).2 c hc (Text.digit?_of_isBlank hblank)
    have htrim : Text.trim (before ++ (digits ++ after)) = digits := by
      refine Text.trimBy_eq_iff.2 ⟨before, after, rfl, hbefore, hafter, ?_, ?_⟩
      · exact fun c hc => hdigit c (List.mem_of_mem_head? hc)
      · exact fun c hc => hdigit c (List.mem_of_mem_getLast? hc)
    rw [size?, Utf8.decode?_encodeChars]
    dsimp only
    rw [htrim, if_neg (Nat.not_lt.2 hlength), hsize]

/-- Sixteen digits make a word. -/
theorem Announces.lt_wordSize {text : Bytes} {size : Nat} (h : Announces text size) :
    size < Text.wordSize := by
  obtain ⟨_, digits, _, -, -, -, hlength, hdenotes⟩ := h
  have hlt := Text.numeral?_lt (by decide) (Text.hexadecimal?_eq_some_iff.2 hdenotes)
  have hpow : 16 ^ digits.length ≤ 16 ^ 16 := Nat.pow_le_pow_right (by decide) hlength
  exact Nat.lt_of_lt_of_le hlt hpow

/-- The extension is cut off at its semicolon. -/
theorem takeWhile_append_extension {text extension : Bytes} (htext : 0x3B ∉ text)
    (hextension : extension = [] ∨ extension.head? = some 0x3B) :
    (text ++ extension).takeWhile (· ≠ 0x3B) = text := by
  have hnil : extension.takeWhile (· ≠ 0x3B) = [] := by
    rcases hextension with hnil | hhead
    · rw [hnil, List.takeWhile_nil]
    · obtain ⟨rest, hrest⟩ := List.head?_eq_some_iff.1 hhead
      rw [hrest, List.takeWhile_cons_of_neg (by decide)]
  rw [List.takeWhile_append_of_pos, hnil, List.append_nil]
  intro b hb
  exact decide_eq_true fun heq => htext (heq ▸ hb)

end SizeLine

/-- A chunk size line as it is written: a hexadecimal numeral with blanks around it, and perhaps an
extension, which begins with a semicolon. -/
structure SizeText where
  before : List Char
  digits : List Char
  after : List Char
  extension : Bytes
  /-- The size that the line announces. -/
  size : Nat
  before_blank : ∀ c ∈ before, Text.isBlank c
  after_blank : ∀ c ∈ after, Text.isBlank c
  length_digits_le : digits.length ≤ 16
  size_eq : Text.hexadecimal? digits = some size
  extension_eq : extension = [] ∨ extension.head? = some 0x3B
  noCrlf : ¬ Bytes.crlf <:+: Utf8.encodeChars (before ++ (digits ++ after)) ++ extension

namespace SizeText

/-- The line on the wire, without its line end. -/
def wire (t : SizeText) : Bytes :=
  Utf8.encodeChars (t.before ++ (t.digits ++ t.after)) ++ t.extension

/-- A size line announces its size. -/
theorem announces (t : SizeText) :
    SizeLine.Announces (Utf8.encodeChars (t.before ++ (t.digits ++ t.after))) t.size :=
  ⟨t.before, t.digits, t.after, rfl, t.before_blank, t.after_blank, t.length_digits_le,
    Text.hexadecimal?_eq_some_iff.1 t.size_eq⟩

/-- The extension does not belong to the size. -/
theorem takeWhile_wire (t : SizeText) :
    t.wire.takeWhile (· ≠ 0x3B) = Utf8.encodeChars (t.before ++ (t.digits ++ t.after)) := by
  refine SizeLine.takeWhile_append_extension (fun h => ?_) t.extension_eq
  have hmem : ';' ∈ t.before ++ (t.digits ++ t.after) :=
    (Utf8.mem_encodeChars_iff (by decide)).1 h
  rcases List.mem_append.1 hmem with hmem | hmem
  · exact absurd (t.before_blank _ hmem) (by decide)
  rcases List.mem_append.1 hmem with hmem | hmem
  · exact (Text.digits_of_numeral? t.size_eq).2 _ hmem (by decide)
  · exact absurd (t.after_blank _ hmem) (by decide)

/-- **A size line is read once it is there**, however far the buffer reaches. -/
theorem parse_of_append_eq (t : SizeText) {buffer stream rest : Bytes}
    (h : buffer ++ stream = t.wire ++ (Bytes.crlf ++ rest)) :
    SizeLine.parse buffer =
      .ok (if t.wire.length + 2 ≤ buffer.length then some ⟨t.size, t.wire.length + 2⟩
        else none) := by
  have hline : ¬ Bytes.crlf <:+: t.wire := t.noCrlf
  rw [SizeLine.parse, Bytes.findCrlf?_of_append_eq hline h]
  by_cases hle : t.wire.length + 2 ≤ buffer.length
  · have htake : buffer.take t.wire.length = t.wire := by
      rw [← List.take_append_of_le_length (by omega : t.wire.length ≤ buffer.length), h,
        List.take_left]
    rw [if_pos hle, if_pos hle]
    dsimp only
    rw [htake, takeWhile_wire, SizeLine.size?_eq_some_iff.2 t.announces]
  · rw [if_neg hle, if_neg hle]

end SizeText

end HttpEcho
