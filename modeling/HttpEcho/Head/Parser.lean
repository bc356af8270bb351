import HttpEcho.Head.Basic
import HttpEcho.ProtocolError

/-!
# Reading request heads

A head is one or more lines, each ended by CR LF, and a blank line. `Head.parse` looks for the
blank line, splits what stands before it into lines, and reads the first as the request line and
the others as header fields; the first offending line decides the error. Blank lines in front of
the head are passed over, and they count towards the size limit.
-/

namespace HttpEcho

/-- The number of header fields that a head may have. -/
def maxFields : Nat := 100

/-- The octets that end a head: the line end of its last line and a blank line. -/
def headEnd : Bytes := Bytes.crlf ++ Bytes.crlf

/-- Whether an octet may stand in a token. -/
def isTokenOctet (b : UInt8) : Bool :=
  let c := Char.ofNat b.toNat
  c.isAlphanum || "!#$%&'*+-.^_`|~".toList.contains c

/-- Whether an octet is a control of ASCII. -/
def isControl (b : UInt8) : Bool := b < 0x20 || b == 0x7F

/-- Whether an octet is padding around a field value: a space or a tab. -/
def isPadding (b : UInt8) : Bool := b == 0x20 || b == 0x09

/-- Whether an octet may not stand in a field value: CR, LF or NUL. -/
def isForbiddenInValue (b : UInt8) : Bool := b == Bytes.cr || b == Bytes.lf || b == 0

/-- What a request line says. -/
structure RequestLine where
  method : Method
  target : String
  version : Version
  deriving DecidableEq, Repr

/-- The version that the last part of a request line names; `line` is the whole line. -/
def Version.parse (line : List Char) (text : List Char) : Except ProtocolError Version :=
  if text = http11.text.toList then .ok .http11
  else if text = http10.text.toList then .ok .http10
  else if "HTTP/".toList.isPrefixOf text then .error (.unsupportedVersion (String.ofList text))
  else .error (.invalidRequestLine (String.ofList line))

/-- Read a request line: a method, a target and a version with one space between them. -/
def RequestLine.parse (line : Bytes) : Except ProtocolError RequestLine :=
  match Utf8.decode? line with
  | none => .error (.invalidRequestLine "Invalid UTF-8 in request line")
  | some chars =>
    match Text.pieces ' ' chars with
    | [method, target, version] =>
      if method.isEmpty || target.isEmpty
          || !(Utf8.encodeChars method).all isTokenOctet
          || (Utf8.encodeChars target).any isControl then
        .error (.invalidRequestLine (String.ofList chars))
      else
        (Version.parse chars version).map fun version =>
          { method := .ofToken (String.ofList method), target := String.ofList target, version }
    | _ => .error (.invalidRequestLine (String.ofList chars))

/-- Read a header line: a name, a colon, and a value with padding around it. A line that begins
with padding would continue the line before it, a form that is refused. -/
def Field.parse (line : Bytes) : Except ProtocolError Field :=
  if line.head?.any isPadding then .error (.invalidHeader "obsolete line folding")
  else
    match Bytes.search [0x3A] line with
    | none => .error (.invalidHeader (Utf8.lossy line))
    | some colon =>
      let name := line.take colon
      let value := Text.trimBy isPadding (line.drop (colon + 1))
      if name.isEmpty || !name.all isTokenOctet then .error (.invalidHeader (Utf8.lossy line))
      else if value.any isForbiddenInValue then .error (.invalidHeader (Utf8.lossy name))
      else .ok { name := Utf8.lossy name, value }

/-- Read header lines when `room` more fields are allowed. -/
def Fields.parse : Nat → List Bytes → Except ProtocolError Fields
  | _, [] => .ok []
  | 0, _ :: _ => .error .tooManyHeaders
  | room + 1, line :: lines =>
    match Field.parse line with
    | .error e => .error e
    | .ok field => (Fields.parse room lines).map (field :: ·)

namespace Head

/-- Read a head from its lines. -/
def ofLines : List Bytes → Except ProtocolError Head
  | [] => .error (.invalidRequestLine "")
  | first :: rest =>
    match RequestLine.parse first with
    | .error e => .error e
    | .ok line =>
      (Fields.parse maxFields rest).map fun fields =>
        { method := line.method, target := line.target, version := line.version, fields }

/-- Read the head at the start of a buffer. The result also says how many octets the head and
the blank lines in front of it take. The size that `limit` bounds leaves the ending out; without
an ending it is the whole buffer that counts. -/
def parse (limit : Nat) (buffer : Bytes) : Except ProtocolError (Head × Nat) :=
  let start := buffer.blankLines
  let rest := buffer.drop start
  match Bytes.search headEnd rest with
  | none => .error (if limit < buffer.length then .headersTooLarge else .incomplete)
  | some size =>
    if limit < start + size then .error .headersTooLarge
    else (ofLines (Bytes.lines (rest.take size))).map fun head => (head, start + size + 4)

/-- A head that was read took at least its ending, and no more than there was. -/
theorem parse_consumed {limit n : Nat} {buffer : Bytes} {head : Head}
    (h : parse limit buffer = .ok (head, n)) : 0 < n ∧ n ≤ buffer.length := by
  unfold parse at h
  dsimp only at h
  split at h
  · simp at h
  · rename_i size hsize
    have hend := Bytes.search_le hsize
    have hstart := Bytes.blankLines_le buffer
    simp only [headEnd, Bytes.crlf, List.length_append, List.length_cons, List.length_nil,
      List.length_drop] at hend
    split at h
    · simp at h
    · cases hl : ofLines (Bytes.lines ((buffer.drop buffer.blankLines).take size)) with
      | error e => rw [hl] at h; simp [Except.map] at h
      | ok head' =>
        rw [hl] at h
        simp only [Except.map, Except.ok.injEq, Prod.mk.injEq] at h
        omega

end Head

end HttpEcho
