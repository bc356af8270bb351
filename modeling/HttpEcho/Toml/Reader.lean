/-!
# Reading off the front of a text

A reader takes something off the front of a text and leaves the rest. This module holds the two
ways of reading a sequence (`readUntil`, `sepBy`) and what stands between the parts of a document:
spaces, comments and line ends. Both sequences go on only while the text gets shorter, so they end
whatever their items do.
-/

namespace HttpEcho.Toml

/-- Takes something off the front of a text, or refuses it. -/
abbrev Reader (α : Type) := List Char → Option (α × List Char)

/-- Items up to where `stop` succeeds, with what it gives. -/
def readUntil {α β : Type} (stop : Reader β) (item : Reader α) : Reader (List α × β) := fun s =>
  match stop s with
  | some (b, rest) => some (([], b), rest)
  | none =>
    match item s with
    | none => none
    | some (a, rest) =>
      if rest.length < s.length then
        (readUntil stop item rest).map fun ((as, b), rest) => ((a :: as, b), rest)
      else none
termination_by s => s.length

/-- One or more items with a separator between them. -/
def sepBy {α : Type} (sep : Char) (item : Reader α) : Reader (List α) := fun s =>
  match item s with
  | none => none
  | some (a, c :: rest) =>
    if c = sep then
      if rest.length < s.length then
        (sepBy sep item rest).map fun (as, rest) => (a :: as, rest)
      else none
    else some ([a], c :: rest)
  | some (a, []) => some ([a], [])
termination_by s => s.length

/-- A given character. -/
def char (c : Char) : Reader Unit
  | [] => none
  | d :: rest => if d = c then some ((), rest) else none

/-! ### Spaces, comments and line ends -/

/-- Whether a character is a space or a tab. -/
def isSpace (c : Char) : Bool := c = ' ' || c = '\t'

/-- Whether a character may stand in text: any but the controls, of which only the tab may. -/
def isText (c : Char) : Bool := c = '\t' || (0x20 ≤ c.toNat && c.toNat ≠ 0x7F)

/-- Drop spaces and tabs. -/
def skipSpaces (s : List Char) : List Char := s.dropWhile isSpace

/-- A line end: LF or CR LF. -/
def lineEnd : Reader Unit
  | '\n' :: rest => some ((), rest)
  | '\r' :: '\n' :: rest => some ((), rest)
  | _ => none

/-- Drop spaces, tabs and line ends. -/
def skipBlank : List Char → List Char
  | '\r' :: '\n' :: rest => skipBlank rest
  | c :: rest => if isSpace c || c = '\n' then skipBlank rest else c :: rest
  | [] => []

/-- Drop spaces, tabs, line ends and comments; `inComment` says whether a comment has begun. -/
def skipLayoutFrom (inComment : Bool) : List Char → List Char
  | '\r' :: '\n' :: rest => skipLayoutFrom false rest
  | c :: rest =>
    if c = '\n' then skipLayoutFrom false rest
    else if inComment then if isText c then skipLayoutFrom true rest else c :: rest
    else if isSpace c then skipLayoutFrom false rest
    else if c = '#' then skipLayoutFrom true rest
    else c :: rest
  | [] => []

/-- Drop spaces, tabs, line ends and comments. -/
def skipLayout (s : List Char) : List Char := skipLayoutFrom false s

/-- The rest of a line that holds no more than spaces and a comment, and its end. The last line
needs no line end. -/
def endOfLine : Reader Unit := fun s =>
  let s := match skipSpaces s with
    | '#' :: rest => rest.dropWhile isText
    | s => s
  if s.isEmpty then some ((), []) else lineEnd s

end HttpEcho.Toml
