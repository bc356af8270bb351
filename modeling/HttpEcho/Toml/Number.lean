import HttpEcho.Text.Numeral
import HttpEcho.Toml.Reader

/-!
# Numbers

Integers are those of 64 bits with a sign, in decimal, or without a sign in hexadecimal, octal or
binary. Floats are kept as they are written; one that is too large for the double format is
refused. A single underscore may stand between two digits.
-/

namespace HttpEcho.Toml

/-! ### Digits -/

/-- More digits, each with at most one underscore in front of it. -/
def moreDigits (base : Nat) : Reader (List Nat)
  | [] => some ([], [])
  | '_' :: c :: rest =>
    match Text.digit? base c with
    | some d => (moreDigits base rest).map fun (ds, rest) => (d :: ds, rest)
    | none => none
  | c :: rest =>
    if c = '_' then none
    else
      match Text.digit? base c with
      | some d => (moreDigits base rest).map fun (ds, rest) => (d :: ds, rest)
      | none => some ([], c :: rest)

/-- One or more digits. -/
def digits (base : Nat) : Reader (List Nat)
  | [] => none
  | c :: rest =>
    match Text.digit? base c with
    | some d => (moreDigits base rest).map fun (ds, rest) => (d :: ds, rest)
    | none => none

/-- Zero, or one or more digits that do not begin with zero. -/
def wholeDigits : Reader (List Nat)
  | '0' :: rest => some ([0], rest)
  | s => digits 10 s

/-- A sign: whether it is a minus, and the rest. No sign is a plus. -/
def sign : List Char → Bool × List Char
  | '+' :: rest => (false, rest)
  | '-' :: rest => (true, rest)
  | s => (false, s)

/-! ### Integers -/

/-- An integer of 64 bits. -/
def inRange (n : Int) : Option Int :=
  if -9223372036854775808 ≤ n ∧ n ≤ 9223372036854775807 then some n else none

/-- An integer whose digits `read` gives. -/
def integerOf (negative : Bool) (read : Reader (List Nat)) (base : Nat) : Reader Int := fun s =>
  match read s with
  | none => none
  | some (ds, rest) =>
    let n : Int := Text.ofDigits base ds
    (inRange (if negative then -n else n)).map fun n => (n, rest)

/-- An integer. -/
def integer : Reader Int
  | '0' :: 'x' :: rest => integerOf false (digits 16) 16 rest
  | '0' :: 'o' :: rest => integerOf false (digits 8) 8 rest
  | '0' :: 'b' :: rest => integerOf false (digits 2) 2 rest
  | s => integerOf (sign s).1 wholeDigits 10 (sign s).2

/-! ### Floats -/

/-- The least number that rounds to infinity in the double format. -/
def doubleOverflow : Nat := Nat.pow 2 1024 - Nat.pow 2 970

/-- Whether `mantissa * 10 ^ exponent` is too large for the double format. Far from the border the
number of digits decides. -/
def overflows (mantissa : Nat) (exponent : Int) : Bool :=
  let magnitude := (Nat.toDigits 10 mantissa).length + exponent
  if mantissa = 0 ∨ magnitude ≤ 308 then false
  else if 309 < magnitude then true
  else if 0 ≤ exponent then doubleOverflow ≤ mantissa * Nat.pow 10 exponent.toNat
  else doubleOverflow * Nat.pow 10 (-exponent).toNat ≤ mantissa

/-- The digits after the point, if there is one. -/
def fraction : Reader (List Nat)
  | '.' :: rest => digits 10 rest
  | _ => none

/-- The exponent, if there is one. -/
def exponent : Reader Int
  | c :: rest =>
    if c = 'e' ∨ c = 'E' then
      let (negative, rest) := sign rest
      (digits 10 rest).map fun (ds, rest) =>
        let n : Int := Text.ofDigits 10 ds
        (if negative then -n else n, rest)
    else none
  | [] => none

/-- Infinity or not a number. -/
def specialFloat : List Char → Option (List Char)
  | 'i' :: 'n' :: 'f' :: rest | 'n' :: 'a' :: 'n' :: rest => some rest
  | _ => none

/-- What follows the digits in front of the point of a float: a fraction, an exponent, or both. The
float may be too large if it is negative. -/
def floatTail (negative : Bool) (whole : List Nat) (s : List Char) : Option (List Char) :=
  match fraction s with
  | none =>
    match exponent s with
    | none => none
    | some (e, rest) =>
      if !negative && overflows (Text.ofDigits 10 whole) e then none else some rest
  | some (part, rest) =>
    let (e, rest) := (exponent rest).getD (0, rest)
    if !negative && overflows (Text.ofDigits 10 (whole ++ part)) (e - part.length) then none
    else some rest

/-- A float, as it is written. -/
def float : Reader String := fun s =>
  let (negative, body) := sign s
  let rest? := match wholeDigits body with
    | some (whole, rest) => floatTail negative whole rest
    | none => specialFloat body
  rest?.map fun rest => (String.ofList (s.take (s.length - rest.length)), rest)

end HttpEcho.Toml
