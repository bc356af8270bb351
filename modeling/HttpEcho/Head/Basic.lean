import HttpEcho.Head.Field
import HttpEcho.Head.Method

/-!
# Request heads

A request head is the request line and the header fields. This module says what a head asks of
the connection: whether to keep it open, whether to confirm before the body, and whether the body
is compressed.
-/

namespace HttpEcho

/-- The versions of HTTP that are served. -/
inductive Version where
  | http10
  | http11
  deriving DecidableEq, Repr

/-- The version as it stands in a request line. -/
def Version.text : Version → String
  | .http10 => "HTTP/1.0"
  | .http11 => "HTTP/1.1"

/-- A request head. -/
structure Head where
  method : Method
  target : String
  version : Version
  fields : Fields
  deriving DecidableEq, Repr

namespace Head

/-- What the client calls itself. -/
def userAgent? (head : Head) : Option Bytes := head.fields.value? "user-agent"

/-- Whether the client lets the connection stay open after the response: in version 1.1 unless it
asks to close, in version 1.0 only if it asks to stay. -/
def keepsAlive (head : Head) : Bool :=
  match head.version with
  | .http11 => !head.fields.hasToken "connection" "close"
  | .http10 => head.fields.hasToken "connection" "keep-alive"

/-- Whether the client waits for a go-ahead before it sends the body. -/
def expectsContinue (head : Head) : Bool :=
  head.version = .http11 &&
    (head.fields.text? "expect").any fun value =>
      Text.sameIgnoringCase (Text.trim value) "100-continue".toList

/-- Whether the body is declared as gzip. -/
def isGzip (head : Head) : Bool := head.fields.hasToken "content-encoding" "gzip"

end Head

end HttpEcho
