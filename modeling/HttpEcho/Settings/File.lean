import HttpEcho.Options
import HttpEcho.Toml.Document

/-!
# The settings file

A settings file is a TOML document with the sections `server`, `http` and `logging`, all of them
optional. `FileSettings.parse` reads one; a setting that it does not give is absent, and keys that
no setting has do not matter. A section may also be written as an array that gives its settings in
their order.
-/

namespace HttpEcho

/-- What a settings file sets. -/
structure FileSettings where
  listen : Option String := none
  workers : Option Nat := none
  maxConnections : Option Nat := none
  keepAliveTimeout : Option Nat := none
  headersTimeout : Option Nat := none
  maxHeaderSize : Option Nat := none
  maxBodySize : Option Nat := none
  echo : Option EchoPolicy := none
  logLevel : Option String := none
  deriving DecidableEq, Repr

namespace FileSettings

open Toml (Value Entries)

/-! ### Values of settings -/

/-- The text of a value. -/
def text? : Value → Option String
  | .string s => some s
  | _ => none

/-- The count that a value is. -/
def count? : Value → Option Nat
  | .integer (.ofNat n) => some n
  | _ => none

/-- Whether a value is a table or an array with nothing in it. -/
def isVoid : Value → Bool
  | .table _ entries => entries.isEmpty
  | .array items => items.isEmpty
  | .tables elements => elements.isEmpty
  | _ => false

/-- The echo policy that a value is: its name, or a table with its name as key and nothing in it.
Braces may enclose no more than that key. -/
def echo? : Value → Option EchoPolicy
  | .string s => EchoPolicy.ofName? s
  | .table .inline [(name, value)] => if isVoid value then EchoPolicy.ofName? name else none
  | .table .inline _ => none
  | .table _ ((name, value) :: _) => if isVoid value then EchoPolicy.ofName? name else none
  | _ => none

/-! ### Sections -/

/-- A section: values with names, or values in order. -/
inductive Section where
  | named (entries : Entries)
  | ordered (values : List Value)

namespace Section

/-- The section that a value is. A date or time has no settings in it. -/
def ofValue? : Value → Option Section
  | .table _ entries => some (named entries)
  | .tables elements => some (ordered (elements.map (.table .header)))
  | .array items => some (ordered items)
  | .moment _ => some (named [])
  | _ => none

/-- A section of a document, empty if the document does not have it. -/
def ofDocument? (name : String) (document : Entries) : Option Section :=
  match document.lookup name with
  | none => some (named [])
  | some value => ofValue? value

/-- The value of a setting, by its name or its place. -/
def value? (name : String) (place : Nat) : Section → Option Value
  | named entries => entries.lookup name
  | ordered values => values[place]?

/-- A setting of a section: none if the section does not have it, and a refusal if `read` does not
admit its value. -/
def setting? {α : Type} (read : Value → Option α) (name : String) (place : Nat) (s : Section) :
    Option (Option α) :=
  match s.value? name place with
  | none => some none
  | some value => (read value).map some

/-- Whether an ordered section is long enough. -/
def hasPlaces (n : Nat) : Section → Bool
  | named _ => true
  | ordered values => n ≤ values.length

end Section

/-! ### Files -/

/-- The settings that a document gives. An array for `server` is long enough to give the number of
workers, which in an array has no default. -/
def ofDocument? (document : Entries) : Option FileSettings := do
  let server ← Section.ofDocument? "server" document
  let http ← Section.ofDocument? "http" document
  let logging ← Section.ofDocument? "logging" document
  guard (server.hasPlaces 2)
  return {
    listen := ← server.setting? text? "listen" 0
    workers := ← server.setting? count? "workers" 1
    maxConnections := ← server.setting? count? "max_connections" 2
    keepAliveTimeout := ← http.setting? count? "keep_alive_timeout_ms" 0
    headersTimeout := ← http.setting? count? "headers_timeout_ms" 1
    maxHeaderSize := ← http.setting? count? "max_header_size" 2
    maxBodySize := ← http.setting? count? "max_body_size" 3
    echo := ← http.setting? echo? "echo" 4
    logLevel := ← logging.setting? text? "level" 0 }

/-- The settings that the text of a file gives. -/
def parse (text : List Char) : Option FileSettings := (Toml.parse text).bind ofDocument?

end FileSettings

end HttpEcho
