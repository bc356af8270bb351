import HttpEcho.Notice
import HttpEcho.Text.Items
import HttpEcho.Text.Numeral

/-!
# Log filters

A log filter is a list of directives with commas between them. A directive is a level, which holds
everywhere, a target, whose notices are all shown, or `target=level`. For a notice the directive
with the longest target that its own target begins with decides; of several for the same target it
is the last. A filter without directives shows errors alone.
-/

namespace HttpEcho

/-- What a directive holds for. -/
inductive Scope where
  /-- The targets that begin with a text; the empty text holds for all of them. -/
  | target (start : List Char)
  /-- A span in brackets. No notice here is written inside a span. -/
  | span
  deriving DecidableEq, Repr

/-- A directive: the least urgent level that is shown in its scope, or none at all. -/
structure Directive where
  scope : Scope
  level : Option Level
  deriving DecidableEq, Repr

namespace Directive

/-- A level by its name or its number. Off is no level. -/
def level? (s : List Char) : Option (Option Level) :=
  match Text.signedDecimal? s with
  | some 0 => some none
  | some 1 => some (some .error)
  | some 2 => some (some .warn)
  | some 3 => some (some .info)
  | some 4 => some (some .debug)
  | some 5 => some (some .trace)
  | _ =>
    match String.ofList (s.map Char.toLower) with
    | "off" => some none
    | "error" => some (some .error)
    | "warn" => some (some .warn)
    | "info" => some (some .info)
    | "debug" => some (some .debug)
    | "trace" => some (some .trace)
    | _ => none

/-- The level after the equals sign. Nothing after it shows all levels. -/
def levelAfterSign? (s : List Char) : Option (Option Level) :=
  if s.isEmpty then some (some .trace) else level? s

/-- What follows a span: nothing, or a level. -/
def afterSpan? : List Char → Option Directive
  | [] => some ⟨.span, some .trace⟩
  | '=' :: level => (levelAfterSign? level).map fun level => ⟨.span, level⟩
  | _ => none

/-- Whether a directive may begin with a character. Beyond ASCII all characters count as letters. -/
def isStart (c : Char) : Bool := c.isAlphanum || "-:_[".toList.contains c || 0x7F < c.toNat

/-- The directive that a text is. -/
def parse? (s : List Char) : Option Directive :=
  if !(s.dropWhile Text.isBlank).head?.any isStart then none
  else
    match s.span fun c => c ≠ '=' && c ≠ '[' with
    | (_, '[' :: rest) => (Text.cutAt? [']'] rest).bind fun (_, after) => afterSpan? after
    | (target, '=' :: level) => (levelAfterSign? level).map fun level => ⟨.target target, level⟩
    | (word, _) =>
      match level? word with
      | some level => some ⟨.target [], level⟩
      | none => some ⟨.target word, some .trace⟩

/-- Whether a directive holds for a target. -/
def holdsFor (target : List Char) (d : Directive) : Bool :=
  match d.scope with
  | .target start => start.isPrefixOf target
  | .span => false

/-- The length of the target of a directive. -/
def length (d : Directive) : Nat :=
  match d.scope with
  | .target start => start.length
  | .span => 0

end Directive

/-- A log filter: its directives in order. -/
structure LogFilter where
  directives : List Directive
  deriving DecidableEq, Repr

namespace LogFilter

/-- The filter with the given directives; without any, errors are shown. -/
def ofDirectives (directives : List Directive) : LogFilter :=
  if directives.isEmpty then ⟨[⟨.target [], some .error⟩]⟩ else ⟨directives⟩

/-- The filter that a text is, if all its directives are well-formed. -/
def parse? (text : String) : Option LogFilter :=
  if text.isEmpty then some (ofDirectives [])
  else ((Text.pieces ',' text.toList).mapM Directive.parse?).map ofDirectives

/-- The filter of the well-formed directives of a text. -/
def lossy (text : String) : LogFilter :=
  ofDirectives ((Text.pieces ',' text.toList).filterMap Directive.parse?)

/-- The filter that holds: the one that is asked for, if it is well-formed, else the log level of
the settings. -/
def choose (asked : Option String) (logLevel : String) : LogFilter :=
  (asked.bind parse?).getD (lossy logLevel)

/-- The directive that decides about a target. -/
def deciding? (f : LogFilter) (target : List Char) : Option Directive :=
  (f.directives.filter (·.holdsFor target)).foldl
    (fun best d =>
      match best with
      | some b => if b.length ≤ d.length then some d else best
      | none => some d)
    none

/-- Whether a notice is shown. -/
def shows (f : LogFilter) (n : Notice) : Bool :=
  ((f.deciding? n.target.toList).bind Directive.level).any n.level.shownAt

/-- The lines of the log that a filter shows. -/
def lines (f : LogFilter) (notices : List Notice) : List String :=
  (notices.filter f.shows).map Notice.line

end LogFilter

end HttpEcho
