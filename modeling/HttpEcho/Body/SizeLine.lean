import HttpEcho.Head.Field
import HttpEcho.Body.Error
import HttpEcho.Text.Numeral

/-!
# Chunk size lines

Each chunk of a body begins with a line that gives the size of the chunk in hexadecimal; what
follows a semicolon is an extension and has no meaning here.
-/

namespace HttpEcho

/-- A chunk size line: the size that it announces and the number of octets that it takes, with
its line end. -/
structure SizeLine where
  size : Nat
  width : Nat
  deriving DecidableEq, Repr

namespace SizeLine

/-- The size that the text in front of the extension denotes: blanks around one to sixteen
hexadecimal digits. -/
def size? (text : Bytes) : Option Nat :=
  match Utf8.decode? text with
  | none => none
  | some chars =>
    let digits := Text.trim chars
    if 16 < digits.length then none else Text.hexadecimal? digits

/-- Read the size line at the start of a buffer; there is none as long as no line ends there. -/
def parse (buffer : Bytes) : Except BodyError (Option SizeLine) :=
  match Bytes.findCrlf? buffer with
  | none => .ok none
  | some stop =>
    let text := (buffer.take stop).takeWhile (· ≠ 0x3B)
    match size? text with
    | none => .error (.malformed (.invalidChunk s!"invalid chunk size: {Utf8.lossy text}"))
    | some size => .ok (some { size, width := stop + 2 })

/-- A size line takes at least its line end, and no more than there is. -/
theorem parse_width {buffer : Bytes} {line : SizeLine} (h : parse buffer = .ok (some line)) :
    2 ≤ line.width ∧ line.width ≤ buffer.length := by
  unfold parse at h
  split at h
  · simp at h
  · rename_i stop hstop
    have := Bytes.findCrlf?_le hstop
    dsimp only at h
    split at h
    · simp at h
    · simp only [Except.ok.injEq, Option.some.injEq] at h
      subst h
      exact ⟨by simp, by simpa using this⟩

end SizeLine

end HttpEcho
