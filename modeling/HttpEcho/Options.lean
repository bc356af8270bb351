import HttpEcho.Settings.Basic
import HttpEcho.Text.Items
import HttpEcho.Text.Numeral

/-!
# The command line

Options are given as `--name value`, `--name=value`, `-n value`, `-nvalue` or `-n=value`, each at
most once, in any order; there are no other arguments. `Options.parse` reads the arguments from left
to right. A value that stands in the argument after its option is looked at only when the next
option or the end shows that the option is complete, so an unknown argument goes before a bad value
that stands in front of it.
-/

namespace HttpEcho

/-- What the command line sets. -/
structure Options where
  config : Option String := none
  listen : Option String := none
  keepAliveTimeout : Option Nat := none
  headersTimeout : Option Nat := none
  maxBodySize : Option Nat := none
  echo : Option EchoPolicy := none
  workers : Option Nat := none
  logLevel : Option String := none
  deriving DecidableEq, Repr

/-- The echo policy of a name. -/
def EchoPolicy.ofName? (name : String) : Option EchoPolicy :=
  match name with
  | "full" => some .full
  | "first-chunk" => some .firstChunk
  | _ => none

namespace Options

/-- Why a command line does not start the server. -/
inductive Stop where
  /-- The user asks for help. -/
  | help
  /-- The user asks for the version. -/
  | version
  /-- No such option, or an argument that belongs to none. -/
  | unknownArgument
  /-- An option without the value that it takes. -/
  | missingValue
  /-- A file name that is empty. -/
  | emptyPath
  /-- A value that is none of those to choose from. -/
  | unknownChoice
  /-- A value that is not a number of 64 bits. -/
  | notANumber
  /-- An option that is given twice. -/
  | repeated
  /-- A value for an option that takes none. -/
  | unexpectedValue
  deriving DecidableEq, Repr

/-- The exit code of a program that ends because of its command line. -/
def Stop.exitCode : Stop → Nat
  | help | version => 0
  | _ => 2

/-- An option that takes a value. -/
inductive Key where
  | config
  | listen
  | keepAliveTimeout
  | headersTimeout
  | maxBodySize
  | echo
  | workers
  | logLevel
  deriving DecidableEq, Repr

/-- An option. -/
inductive Name where
  | key (key : Key)
  | help
  | version
  deriving DecidableEq, Repr

/-- The option with a long name. -/
def Name.ofLong? (name : List Char) : Option Name :=
  match String.ofList name with
  | "config" => some (.key .config)
  | "listen" => some (.key .listen)
  | "keep-alive-timeout-ms" => some (.key .keepAliveTimeout)
  | "headers-timeout-ms" => some (.key .headersTimeout)
  | "max-body-size" => some (.key .maxBodySize)
  | "echo" => some (.key .echo)
  | "workers" => some (.key .workers)
  | "log-level" => some (.key .logLevel)
  | "help" => some .help
  | "version" => some .version
  | _ => none

/-- The option with a short name. -/
def Name.ofShort? (name : Char) : Option Name :=
  match name with
  | 'c' => some (.key .config)
  | 'l' => some (.key .listen)
  | 'k' => some (.key .keepAliveTimeout)
  | 'e' => some (.key .echo)
  | 'w' => some (.key .workers)
  | 'h' => some .help
  | 'V' => some .version
  | _ => none

/-! ### Arguments -/

/-- What an argument is by its form. -/
inductive Argument where
  /-- A value, or an argument that belongs to no option. -/
  | plain (text : String)
  /-- The mark `--`, after which no argument is an option. -/
  | endOfOptions
  /-- An option, none if there is no such option, and the value that is attached to it. -/
  | option (name : Option Name) (attached : Option String)
  deriving DecidableEq, Repr

/-- The long option and the value in the text after `--`. -/
def Argument.ofLong (text : List Char) : Argument :=
  match Text.cutAt? ['='] text with
  | none => .option (Name.ofLong? text) none
  | some (name, value) => .option (Name.ofLong? name) (some (String.ofList value))

/-- The short option and the value in the text after `-`. Short options that take no value may be
followed by others, but the first of them already ends the reading. -/
def Argument.ofShort (name : Char) (rest : List Char) : Argument :=
  match Name.ofShort? name with
  | some (.key key) =>
    .option (some (.key key)) (match rest with
      | [] => none
      | '=' :: value => some (String.ofList value)
      | value => some (String.ofList value))
  | name => .option name none

/-- What an argument is by its form. -/
def Argument.ofText (text : String) : Argument :=
  match text.toList with
  | ['-', '-'] => .endOfOptions
  | '-' :: '-' :: rest => ofLong rest
  | '-' :: name :: rest => ofShort name rest
  | _ => .plain text

/-! ### Reading -/

/-- A number of 64 bits. -/
def word? (value : String) : Except Stop Nat :=
  match Text.signedDecimal? value.toList with
  | some n => if n < Text.wordSize then .ok n else .error .notANumber
  | none => .error .notANumber

/-- Give an option a value that it does not have yet. -/
def setOnce {α : Type} (old : Option α) (value : Except Stop α) : Except Stop (Option α) :=
  if old.isSome then .error .repeated else value.map some

/-- Set an option. -/
def set (o : Options) (key : Key) (value : String) : Except Stop Options :=
  match key with
  | .config =>
    (setOnce o.config (if value.isEmpty then .error .emptyPath else .ok value)).map
      ({ o with config := · })
  | .listen => (setOnce o.listen (.ok value)).map ({ o with listen := · })
  | .keepAliveTimeout =>
    (setOnce o.keepAliveTimeout (word? value)).map ({ o with keepAliveTimeout := · })
  | .headersTimeout => (setOnce o.headersTimeout (word? value)).map ({ o with headersTimeout := · })
  | .maxBodySize => (setOnce o.maxBodySize (word? value)).map ({ o with maxBodySize := · })
  | .echo =>
    (setOnce o.echo ((EchoPolicy.ofName? value).elim (.error .unknownChoice) .ok)).map
      ({ o with echo := · })
  | .workers => (setOnce o.workers (word? value)).map ({ o with workers := · })
  | .logLevel => (setOnce o.logLevel (.ok value)).map ({ o with logLevel := · })

/-- What is known after some arguments: the options that are complete, and the one that is not yet,
with its value if that has come. -/
structure Progress where
  options : Options := {}
  current : Option (Key × Option String) := none
  deriving DecidableEq, Repr

/-- Complete the current option. -/
def Progress.settle (p : Progress) : Except Stop Options :=
  match p.current with
  | none => .ok p.options
  | some (_, none) => .error .missingValue
  | some (key, some value) => p.options.set key value

/-- Take an argument that is not the mark `--`. -/
def Progress.take (p : Progress) : Argument → Except Stop Progress
  | .plain value =>
    match p.current with
    | some (key, none) => .ok { p with current := some (key, some value) }
    | _ => .error .unknownArgument
  | .endOfOptions | .option none _ => .error .unknownArgument
  | .option (some (.key key)) none =>
    p.settle.map fun options => { options, current := some (key, none) }
  | .option (some (.key key)) (some value) =>
    p.settle.bind fun options => (options.set key value).map fun options => { options }
  | .option (some .help) none => p.settle.bind fun _ => .error .help
  | .option (some .version) none => p.settle.bind fun _ => .error .version
  | .option (some _) (some _) => .error .unexpectedValue

/-- Take the arguments one after the other. No argument may follow the mark `--`. -/
def parseFrom (p : Progress) : List String → Except Stop Options
  | [] => p.settle
  | text :: rest =>
    match Argument.ofText text with
    | .endOfOptions => if rest.isEmpty then p.settle else .error .unknownArgument
    | argument => (p.take argument).bind fun p => parseFrom p rest

/-- The options that a command line gives. -/
def parse (arguments : List String) : Except Stop Options := parseFrom {} arguments

end Options

end HttpEcho
