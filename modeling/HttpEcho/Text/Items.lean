import HttpEcho.Text.Blank

/-!
# Lists inside a text

Splitting at a separator, cutting a text in two at a pattern, the items of a comma-separated list,
and comparison without regard to the case of ASCII letters.
-/

namespace HttpEcho.Text

variable {α : Type} [DecidableEq α]

/-- Put one element in front of a sequence that is already split into pieces. -/
def consPiece (sep a : α) : List (List α) → List (List α)
  | [] => [[a]]
  | piece :: pieces => if a = sep then [] :: piece :: pieces else (a :: piece) :: pieces

/-- The pieces between the separators; one more than there are separators. -/
def pieces (sep : α) (s : List α) : List (List α) := s.foldr (consPiece sep) [[]]

/-- What stands before and after the first place at which `pattern` stands. -/
def cutAt? (pattern : List α) : List α → Option (List α × List α)
  | [] => if pattern.isEmpty then some ([], []) else none
  | a :: s =>
    if pattern.isPrefixOf (a :: s) then some ([], (a :: s).drop pattern.length)
    else (cutAt? pattern s).map fun (before, after) => (a :: before, after)

/-- What stands before and after the last separator. -/
def cutAtLast? (sep : α) (s : List α) : Option (List α × List α) :=
  (cutAt? [sep] s.reverse).map fun (after, before) => (before.reverse, after.reverse)

/-- The items of a comma-separated list, each without the blanks around it. -/
def items (s : List Char) : List (List Char) := (pieces ',' s).map trim

/-- Two texts that differ at most in the case of ASCII letters. -/
def sameIgnoringCase (s t : List Char) : Bool := s.map Char.toLower == t.map Char.toLower

end HttpEcho.Text
