/-!
# Blank characters

The characters with the Unicode property White_Space, and trimming them off a text.
-/

namespace HttpEcho.Text

/-- The code points with the property White_Space. -/
def blankCodePoints : List Nat :=
  [0x9, 0xA, 0xB, 0xC, 0xD, 0x20, 0x85, 0xA0, 0x1680, 0x2000, 0x2001, 0x2002, 0x2003, 0x2004,
    0x2005, 0x2006, 0x2007, 0x2008, 0x2009, 0x200A, 0x2028, 0x2029, 0x202F, 0x205F, 0x3000]

/-- Whether a character has the property White_Space. -/
def isBlank (c : Char) : Bool := blankCodePoints.contains c.toNat

/-- Drop the elements at both ends that satisfy `p`. -/
def trimBy {α : Type} (p : α → Bool) (s : List α) : List α :=
  ((s.dropWhile p).reverse.dropWhile p).reverse

/-- Drop the blank characters at both ends. -/
def trim (s : List Char) : List Char := trimBy isBlank s

end HttpEcho.Text
