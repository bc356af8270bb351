import HttpEcho.Toml.Moment
import HttpEcho.Toml.Number
import HttpEcho.Toml.Table

/-!
# Documents

A document is a sequence of statements: headers, and keys with their values. `value` reads a value,
`statement` a statement, and `parse` a whole document: it reads all statements and puts together the
table that they define.
-/

namespace HttpEcho.Toml

/-! ### Values -/

/-- How deep arrays and braces may stand inside each other. -/
def maxDepth : Nat := 79

/-- An item of an array, with the comma after it. -/
def arrayItem (value : Reader Value) : Reader Value := fun s =>
  match value (skipLayout s) with
  | none => none
  | some (v, rest) =>
    match skipLayout rest with
    | ',' :: rest => some (v, rest)
    | ']' :: rest => some (v, ']' :: rest)
    | _ => none

/-- An array whose bracket has been read. -/
def array (value : Reader Value) : Reader Value := fun s =>
  (readUntil (fun s => char ']' (skipLayout s)) (arrayItem value) s).map
    fun ((items, _), rest) => (.array items, rest)

/-- A key and its value, with the spaces around them. -/
def pair (value : Reader Value) : Reader (Key × Value) := fun s =>
  match key s with
  | some (k, '=' :: rest) =>
    (value (skipSpaces rest)).map fun (v, rest) => ((k, v), skipSpaces rest)
  | _ => none

/-- A table in braces whose first brace has been read. -/
def inlineTable (value : Reader Value) : Reader Value := fun s =>
  match skipSpaces s with
  | '}' :: rest => some (.table .inline [], rest)
  | s =>
    match sepBy ',' (pair value) s with
    | some (pairs, '}' :: rest) =>
      (Entries.ofPairs pairs).map fun entries => (.table .inline entries, rest)
    | _ => none

/-- A number or a moment. -/
def numeric : Reader Value := fun s =>
  ((moment s).map fun (text, rest) => (.moment text, rest))
    <|> ((float s).map fun (text, rest) => (.float text, rest))
    <|> (integer s).map fun (n, rest) => (.integer n, rest)

/-- A value without parts. -/
def simpleValue : Reader Value
  | 't' :: 'r' :: 'u' :: 'e' :: rest => some (.boolean true, rest)
  | 'f' :: 'a' :: 'l' :: 's' :: 'e' :: rest => some (.boolean false, rest)
  | s => ((string s).map fun (text, rest) => (.string text, rest)) <|> numeric s

/-- A value, in which arrays and braces stand at most `depth` deep inside each other. -/
def value : Nat → Reader Value
  | 0, '[' :: _ | 0, '{' :: _ => none
  | depth + 1, '[' :: rest => array (value depth) rest
  | depth + 1, '{' :: rest => inlineTable (value depth) rest
  | _, s => simpleValue s

/-! ### Statements -/

/-- A statement of a document. -/
inductive Statement where
  /-- A header: the keys that follow belong to the table that it names. -/
  | table (key : Key)
  /-- A header of a new element of an array of tables. -/
  | element (key : Key)
  | pair (key : Key) (value : Value)

/-- What `close` closes at the end of a line. -/
def closing (close : List Char) (statement : Statement) : Reader Statement := fun s =>
  if close.isPrefixOf s then
    (endOfLine (s.drop close.length)).map fun (_, rest) => (statement, rest)
  else none

/-- A statement, with the rest of its line and the blank lines in front of it. -/
def statement : Reader Statement := fun s =>
  match skipLayout s with
  | '[' :: '[' :: rest => (key rest).bind fun (k, rest) => closing [']', ']'] (.element k) rest
  | '[' :: rest => (key rest).bind fun (k, rest) => closing [']'] (.table k) rest
  | s => (pair (value maxDepth) s).bind fun ((k, v), rest) => closing [] (.pair k v) rest

/-- The end of a document, after blank lines. -/
def endOfText : Reader Unit := fun s => if (skipLayout s).isEmpty then some ((), []) else none

/-- The statements of a document. A byte order mark in front of it does not count. -/
def statements (s : List Char) : Option (List Statement) :=
  let s := if s.head? = some (Char.ofNat 0xFEFF) then s.tail else s
  (readUntil endOfText statement s).map fun ((all, _), _) => all

/-! ### Documents -/

/-- What is known after some statements: the document, and the table that the last header named. -/
structure Progress where
  document : Entries := []
  table : List String := []

/-- Take a statement. -/
def Progress.take (p : Progress) : Statement → Option Progress
  | .table key =>
    (Entries.openTable key p.document).map fun document =>
      { document, table := key.path ++ [key.name] }
  | .element key =>
    (Entries.openElement key p.document).map fun document =>
      { document, table := key.path ++ [key.name] }
  | .pair key value =>
    (Entries.defineIn p.table key value p.document).map fun document => { p with document }

/-- The table that a text defines, if it is a document. -/
def parse (s : List Char) : Option Entries :=
  (statements s).bind fun all => (all.foldlM Progress.take {}).map Progress.document

end HttpEcho.Toml
