import HttpEcho.Text.Items
import HttpEcho.Text.Utf8

/-!
# Header fields

The fields of a request in arrival order. Names are compared without regard to the case of ASCII
letters; values are the octets received and need not be UTF-8.
-/

namespace HttpEcho

/-- A header field. -/
structure Field where
  name : String
  value : Bytes
  deriving DecidableEq, Repr

/-- The fields of a request, in arrival order. -/
abbrev Fields := List Field

/-- Whether a field has a given name. -/
def Field.isNamed (name : String) (f : Field) : Bool :=
  Text.sameIgnoringCase f.name.toList name.toList

namespace Fields

/-- The values of every field with the name, in order. -/
def values (fields : Fields) (name : String) : List Bytes :=
  (fields.filter (Field.isNamed name)).map Field.value

/-- The value of the first field with the name. -/
def value? (fields : Fields) (name : String) : Option Bytes :=
  (fields.find? (Field.isNamed name)).map Field.value

/-- The value of the first field with the name, if that value is UTF-8. -/
def text? (fields : Fields) (name : String) : Option (List Char) :=
  (fields.value? name).bind Utf8.decode?

/-- The list items of every UTF-8 value of the named fields. -/
def itemsOf (fields : Fields) (name : String) : List (List Char) :=
  ((fields.values name).filterMap Utf8.decode?).flatMap Text.items

/-- Whether the named fields list the token. -/
def hasToken (fields : Fields) (name token : String) : Bool :=
  (fields.itemsOf name).any (Text.sameIgnoringCase · token.toList)

/-- The first value is the first of all values. -/
theorem value?_eq_head? (fields : Fields) (name : String) :
    fields.value? name = (fields.values name).head? := by
  simp only [value?, values, List.head?_map, List.head?_filter]

end Fields

end HttpEcho
