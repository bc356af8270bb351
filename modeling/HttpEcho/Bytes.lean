/-!
# Octet strings

Everything that crosses a connection is a list of octets. This module holds the type, the search
for a pattern of octets (`Bytes.search`), and the two ways in which CR LF divides a text: cutting
off the first line (`Bytes.cutLine?`) and splitting into all lines (`Bytes.lines`).
-/

namespace HttpEcho

/-- A string of octets. -/
abbrev Bytes := List UInt8

namespace Bytes

/-- Carriage return. -/
def cr : UInt8 := 13

/-- Line feed. -/
def lf : UInt8 := 10

/-- The line end, CR LF. -/
def crlf : Bytes := [cr, lf]

/-- The first place, counted from `i` on, at which `pattern` stands in the octets. -/
def searchFrom (pattern : Bytes) (i : Nat) : Bytes → Option Nat
  | [] => if pattern.isEmpty then some i else none
  | b :: rest =>
    if pattern.isPrefixOf (b :: rest) then some i else searchFrom pattern (i + 1) rest

/-- The first place at which `pattern` stands in `bytes`. -/
def search (pattern bytes : Bytes) : Option Nat := searchFrom pattern 0 bytes

/-- The place of the first CR LF. -/
def findCrlf? (bytes : Bytes) : Option Nat := search crlf bytes

/-- The first line without its CR LF, and what follows the line end. -/
def cutLine? (bytes : Bytes) : Option (Bytes × Bytes) :=
  (findCrlf? bytes).map fun n => (bytes.take n, bytes.drop (n + 2))

/-- Put one octet in front of a text that is already split into lines: a CR in front of an LF
makes the two a line end, any other octet joins the first line. -/
def consLine (b : UInt8) : List Bytes → List Bytes
  | [] => [[b]]
  | [] :: lines => [b] :: lines
  | (c :: line) :: lines =>
    if b = cr ∧ c = lf then [] :: line :: lines else (b :: c :: line) :: lines

/-- The lines of a text, split at every CR LF. A text without CR LF is one line, and so is the
empty text. -/
def lines (bytes : Bytes) : List Bytes := bytes.foldr consLine [[]]

/-- The number of octets of the blank lines at the start, counted on top of `n`. -/
def blankLinesFrom (n : Nat) : Bytes → Nat
  | a :: b :: rest => if a = cr ∧ b = lf then blankLinesFrom (n + 2) rest else n
  | _ => n

/-- How many octets the CR LF pairs at the start of `bytes` take. -/
def blankLines (bytes : Bytes) : Nat := blankLinesFrom 0 bytes

/-! ### Laws of search and cutting -/

theorem searchFrom_eq_some_le {pattern bytes : Bytes} {i n : Nat}
    (h : searchFrom pattern i bytes = some n) : i ≤ n ∧ n + pattern.length ≤ i + bytes.length := by
  induction bytes generalizing i with
  | nil =>
    cases pattern with
    | nil => simp [searchFrom] at h; simp [h]
    | cons _ _ => simp [searchFrom] at h
  | cons b rest ih =>
    rw [searchFrom] at h
    split at h
    case isTrue hp =>
      obtain rfl := Option.some.inj h
      have := (List.isPrefixOf_iff_prefix.1 hp).length_le
      exact ⟨Nat.le_refl _, by omega⟩
    case isFalse =>
      have := ih h
      simp only [List.length_cons]
      omega

/-- A pattern that is found lies within the octets. -/
theorem search_le {pattern bytes : Bytes} {n : Nat} (h : search pattern bytes = some n) :
    n + pattern.length ≤ bytes.length := by
  simpa using (searchFrom_eq_some_le h).2

/-- A line end that is found lies within the octets. -/
theorem findCrlf?_le {bytes : Bytes} {n : Nat} (h : findCrlf? bytes = some n) :
    n + 2 ≤ bytes.length :=
  search_le h

theorem blankLinesFrom_le (n : Nat) (bytes : Bytes) :
    blankLinesFrom n bytes ≤ n + bytes.length := by
  fun_induction blankLinesFrom n bytes with
  | case1 n a b rest _ ih => simp only [List.length_cons]; omega
  | case2 => omega
  | case3 => omega

/-- The blank lines at the start lie within the octets. -/
theorem blankLines_le (bytes : Bytes) : blankLines bytes ≤ bytes.length := by
  simpa [blankLines] using blankLinesFrom_le 0 bytes

end Bytes

end HttpEcho
