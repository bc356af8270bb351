import HttpEcho.Head.Parser
import HttpEcho.Text.Numeral

/-!
# Body framing

How a head delimits the body that follows it. A transfer coding decides if there is one, and it
has to end in `chunked`; otherwise the content length decides, and all its values have to agree.
-/

namespace HttpEcho

/-- How the body of a request is delimited. -/
inductive Framing where
  /-- No body follows the head. -/
  | empty
  /-- Exactly this many octets follow. -/
  | length (n : Nat)
  /-- The body comes in chunks, each with its size in front. -/
  | chunked
  deriving DecidableEq, Repr

namespace Head

/-- The transfer codings that a value lists. -/
def codingsOf (value : Bytes) : Except ProtocolError (List (List Char)) :=
  match Utf8.decode? value with
  | none => .error (.unsupportedTransferEncoding (Utf8.lossy value))
  | some chars => .ok ((Text.items chars).filter fun item => !item.isEmpty)

/-- The transfer codings of a request, in the order in which they were applied. -/
def codings (head : Head) : Except ProtocolError (List (List Char)) :=
  ((head.fields.values "transfer-encoding").mapM codingsOf).map List.flatten

/-- Add an item of the content length to what the earlier items say: it has to be a number of 64
bits, the same number as the earlier ones. -/
def agreeLength (error : ProtocolError) (seen : Option Nat) (item : List Char) :
    Except ProtocolError (Option Nat) :=
  match (Text.decimal? item).filter (· < Text.wordSize) with
  | none => .error error
  | some n => if seen.any (· ≠ n) then .error error else .ok (some n)

/-- Add all items of one value of the content length. -/
def agreeValue (seen : Option Nat) (value : Bytes) : Except ProtocolError (Option Nat) :=
  match Utf8.decode? value with
  | none => .error (.invalidContentLength (Utf8.lossy value))
  | some chars =>
    (Text.items chars).foldlM (agreeLength (.invalidContentLength (String.ofList chars))) seen

/-- The content length that a request declares. -/
def contentLength? (head : Head) : Except ProtocolError (Option Nat) :=
  (head.fields.values "content-length").foldlM agreeValue none

/-- The framing that the last transfer coding gives. -/
def framingOfCoding (version : Version) (coding : List Char) : Except ProtocolError Framing :=
  let text := String.ofList coding
  match version with
  | .http10 => .error (.unsupportedTransferEncoding s!"{text} in HTTP/1.0 request")
  | .http11 =>
    if Text.sameIgnoringCase coding "chunked".toList then .ok .chunked
    else .error (.unsupportedTransferEncoding text)

/-- How the body of a request is delimited. -/
def framing (head : Head) : Except ProtocolError Framing :=
  match head.codings with
  | .error e => .error e
  | .ok codings =>
    match codings.getLast? with
    | some last => framingOfCoding head.version last
    | none =>
      head.contentLength?.map fun
        | none | some 0 => .empty
        | some n => .length n

end Head

end HttpEcho
