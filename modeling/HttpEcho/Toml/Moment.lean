import HttpEcho.Text.Numeral
import HttpEcho.Toml.Reader

/-!
# Dates and times

A moment is a date, a time of day, or both, then with or without an offset from universal time.
Moments are kept as they are written.
-/

namespace HttpEcho.Toml

/-- The number that digits denote, if it lies between two bounds. -/
def between (low high : Nat) (digits : List Char) : Option Nat :=
  (Text.decimal? digits).filter fun n => low ≤ n && n ≤ high

/-- The number of days of a month. -/
def daysOfMonth (year month : Nat) : Nat :=
  if month = 2 then
    if year % 4 = 0 ∧ (year % 100 ≠ 0 ∨ year % 400 = 0) then 29 else 28
  else if month = 4 ∨ month = 6 ∨ month = 9 ∨ month = 11 then 30
  else 31

/-- A date; gives what follows. -/
def date : List Char → Option (List Char)
  | y₁ :: y₂ :: y₃ :: y₄ :: '-' :: m₁ :: m₂ :: '-' :: d₁ :: d₂ :: rest =>
    match between 0 9999 [y₁, y₂, y₃, y₄], between 1 12 [m₁, m₂] with
    | some year, some month => (between 1 (daysOfMonth year month) [d₁, d₂]).map fun _ => rest
    | _, _ => none
  | _ => none

/-- Parts of a second after the point; without them nothing is taken. -/
def secondFraction : List Char → List Char
  | '.' :: rest =>
    if (rest.takeWhile Char.isDigit).isEmpty then '.' :: rest else rest.dropWhile Char.isDigit
  | s => s

/-- A time of day; gives what follows. A minute may have a leap second. -/
def timeOfDay : List Char → Option (List Char)
  | h₁ :: h₂ :: ':' :: m₁ :: m₂ :: ':' :: s₁ :: s₂ :: rest =>
    match between 0 23 [h₁, h₂], between 0 59 [m₁, m₂], between 0 60 [s₁, s₂] with
    | some _, some _, some _ => some (secondFraction rest)
    | _, _, _ => none
  | _ => none

/-- An offset from universal time; without one nothing is taken. -/
def offset : List Char → List Char
  | 'Z' :: rest | 'z' :: rest => rest
  | c :: h₁ :: h₂ :: ':' :: m₁ :: m₂ :: rest =>
    if (c = '+' ∨ c = '-') ∧ (between 0 23 [h₁, h₂]).isSome ∧ (between 0 59 [m₁, m₂]).isSome then
      rest
    else c :: h₁ :: h₂ :: ':' :: m₁ :: m₂ :: rest
  | s => s

/-- The time of day after a date; without one nothing is taken. -/
def timeAfterDate : List Char → List Char
  | c :: rest =>
    if c = 'T' ∨ c = 't' ∨ c = ' ' then
      match timeOfDay rest with
      | some rest => offset rest
      | none => c :: rest
    else c :: rest
  | [] => []

/-- A moment, as it is written. -/
def moment : Reader String := fun s =>
  let rest? := match date s with
    | some rest => some (timeAfterDate rest)
    | none => timeOfDay s
  rest?.map fun rest => (String.ofList (s.take (s.length - rest.length)), rest)

end HttpEcho.Toml
