/-!
# Response statuses

The five statuses that a response can have.
-/

namespace HttpEcho

/-- The status of a response. -/
inductive Status where
  | ok
  | badRequest
  | requestTimeout
  | payloadTooLarge
  | requestHeaderFieldsTooLarge
  deriving DecidableEq, Repr

namespace Status

/-- The three-digit code. -/
def code : Status → Nat
  | ok => 200
  | badRequest => 400
  | requestTimeout => 408
  | payloadTooLarge => 413
  | requestHeaderFieldsTooLarge => 431

/-- The reason phrase. -/
def reason : Status → String
  | ok => "OK"
  | badRequest => "Bad Request"
  | requestTimeout => "Request Timeout"
  | payloadTooLarge => "Payload Too Large"
  | requestHeaderFieldsTooLarge => "Request Header Fields Too Large"

/-- Every status. -/
def all : List Status :=
  [ok, badRequest, requestTimeout, payloadTooLarge, requestHeaderFieldsTooLarge]

/-- The status with a given code. -/
def ofCode? (n : Nat) : Option Status := all.find? fun s => s.code = n

theorem ofCode?_code (s : Status) : ofCode? s.code = some s := by
  cases s <;> decide

end Status

end HttpEcho
