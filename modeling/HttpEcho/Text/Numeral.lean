/-!
# Numerals

Reading decimal and hexadecimal numerals. A numeral is a non-empty string of digits; its value is
unbounded, and each use states the width that it admits.
-/

namespace HttpEcho.Text

/-- The value of a digit below `base`, for bases up to 16. Letters of either case are digits. -/
def digit? (base : Nat) (c : Char) : Option Nat :=
  let value :=
    if '0' ≤ c ∧ c ≤ '9' then some (c.toNat - '0'.toNat)
    else if 'a' ≤ c ∧ c ≤ 'f' then some (c.toNat - 'a'.toNat + 10)
    else if 'A' ≤ c ∧ c ≤ 'F' then some (c.toNat - 'A'.toNat + 10)
    else none
  value.filter (· < base)

/-- The value of a sequence of digits, the most significant first. -/
def ofDigits (base : Nat) (digits : List Nat) : Nat :=
  digits.foldl (fun n d => n * base + d) 0

/-- The value of a non-empty string of digits. -/
def numeral? (base : Nat) (s : List Char) : Option Nat :=
  if s.isEmpty then none else (s.mapM (digit? base)).map (ofDigits base)

/-- The value of a decimal numeral. -/
def decimal? (s : List Char) : Option Nat := numeral? 10 s

/-- The value of a decimal numeral that may have a plus sign in front. -/
def signedDecimal? : List Char → Option Nat
  | '+' :: s => decimal? s
  | s => decimal? s

/-- The value of a hexadecimal numeral. -/
def hexadecimal? (s : List Char) : Option Nat := numeral? 16 s

/-- One more than the largest number of 64 bits. -/
def wordSize : Nat := 18446744073709551616

end HttpEcho.Text
