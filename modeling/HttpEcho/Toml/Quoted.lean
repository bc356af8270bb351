import HttpEcho.Text.Numeral
import HttpEcho.Toml.Reader

/-!
# Strings and keys

A string stands between quotation marks, which allow escapes, or between apostrophes, which do not;
tripled marks allow line ends. A key is a sequence of parts with dots between them, each of which is
bare or a string of one line.
-/

namespace HttpEcho.Toml

/-! ### Escapes -/

/-- A character by its number in hexadecimal, with exactly `width` digits. -/
def scalar (width : Nat) : Reader Char := fun s =>
  let digits := s.take width
  if digits.length < width then none
  else
    match Text.hexadecimal? digits with
    | none => none
    | some n => if n.isValidChar then some (Char.ofNat n, s.drop width) else none

/-- What follows a backslash, as the character that it stands for. -/
def escape : Reader Char
  | 'b' :: rest => some ('\x08', rest)
  | 't' :: rest => some ('\t', rest)
  | 'n' :: rest => some ('\n', rest)
  | 'f' :: rest => some ('\x0c', rest)
  | 'r' :: rest => some ('\r', rest)
  | '"' :: rest => some ('"', rest)
  | '\\' :: rest => some ('\\', rest)
  | 'u' :: rest => scalar 4 rest
  | 'U' :: rest => scalar 8 rest
  | _ => none

/-! ### Strings of one line -/

/-- A character of a string, which is written as it is. -/
def plain : Reader Char
  | [] => none
  | c :: rest => if isText c then some (c, rest) else none

/-- A character of a string with escapes. -/
def plainOrEscape : Reader Char
  | '\\' :: rest => escape rest
  | s => plain s

/-- A string of one line whose first mark has been read. -/
def closedBy (mark : Char) (item : Reader Char) : Reader String := fun s =>
  (readUntil (char mark) item s).map fun ((cs, _), rest) => (String.ofList cs, rest)

/-! ### Strings of several lines -/

/-- The end of a string of several lines: three marks. Up to two marks more belong to the string. -/
def tripled (mark : Char) : Reader (List Char) := fun s =>
  let run := (s.takeWhile (· = mark)).length
  if run < 3 then none
  else
    let more := min (run - 3) 2
    some (List.replicate more mark, s.drop (3 + more))

/-- A line end, as LF. -/
def newLine : Reader (List Char) := fun s => (lineEnd s).map fun (_, rest) => (['\n'], rest)

/-- A piece of a string of several lines that is written as it is. -/
def plainPiece : Reader (List Char) := fun s =>
  newLine s <|> (plain s).map fun (c, rest) => ([c], rest)

/-- A piece of a string of several lines with escapes. A backslash at the end of a line drops the
line end and all spaces and line ends that follow. -/
def pieceOrEscape : Reader (List Char)
  | '\\' :: rest =>
    match lineEnd (skipSpaces rest) with
    | some (_, after) => some ([], skipBlank after)
    | none => (escape rest).map fun (c, rest) => ([c], rest)
  | s => plainPiece s

/-- A string of several lines whose first marks have been read. A line end right after them does
not count. -/
def closedByTripled (mark : Char) (item : Reader (List Char)) : Reader String := fun s =>
  let s := ((lineEnd s).map Prod.snd).getD s
  (readUntil (tripled mark) item s).map fun ((pieces, last), rest) =>
    (String.ofList (pieces.flatten ++ last), rest)

/-- A string of any form. -/
def string : Reader String
  | '"' :: '"' :: '"' :: rest => closedByTripled '"' pieceOrEscape rest
  | '\'' :: '\'' :: '\'' :: rest => closedByTripled '\'' plainPiece rest
  | '"' :: rest => closedBy '"' plainOrEscape rest
  | '\'' :: rest => closedBy '\'' plain rest
  | _ => none

/-! ### Keys -/

/-- A key: the tables that lead to it, and its name in the last of them. -/
structure Key where
  path : List String
  name : String
  deriving DecidableEq, Repr

/-- The parts that a key may not reach. -/
def maxKeyParts : Nat := 80

/-- Whether a character may stand in a bare key. -/
def isBare (c : Char) : Bool := c.isAlphanum || c = '_' || c = '-'

/-- A part of a key, with the spaces around it. -/
def keyPart : Reader String := fun s =>
  let part : Option (String × List Char) := match skipSpaces s with
    | '"' :: rest => closedBy '"' plainOrEscape rest
    | '\'' :: rest => closedBy '\'' plain rest
    | s =>
      let bare := s.takeWhile isBare
      if bare.isEmpty then none else some (String.ofList bare, s.dropWhile isBare)
  part.map fun (name, rest) => (name, skipSpaces rest)

/-- A key, with the spaces around it. -/
def key : Reader Key := fun s =>
  match sepBy '.' keyPart s with
  | none => none
  | some (parts, rest) =>
    match parts.getLast? with
    | none => none
    | some name =>
      if parts.length < maxKeyParts then some ({ path := parts.dropLast, name }, rest) else none

end HttpEcho.Toml
