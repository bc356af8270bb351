import HttpEcho.Text.Numeral
import Mathlib.Data.List.Forall2
import Mathlib.Data.Nat.Digits.Defs

/-!
# Laws of numerals

Which texts are read as a number, and which number that is. `Text.Denotes` states it for decimal
numerals and `Text.DenotesHex` for hexadecimal ones, in terms of the positional value that the
library gives to digits. `Text.decimal?_eq_some_iff` and `Text.hexadecimal?_eq_some_iff` say that
reading agrees with them.
-/

namespace HttpEcho.Text

/-- A non-empty string of ASCII digits denotes its positional value. -/
structure Denotes (s : List Char) (n : Nat) : Prop where
  ne_nil : s ≠ []
  isDigit : ∀ c ∈ s, c.isDigit
  value_eq : Nat.ofDigits 10 (s.map fun c => c.toNat - '0'.toNat).reverse = n

/-- The value of digits is that of the library, which has the least significant digit first. -/
theorem ofDigits_eq (base : Nat) (digits : List Nat) :
    ofDigits base digits = Nat.ofDigits base digits.reverse := by
  rw [ofDigits, Nat.ofDigits_eq_foldr, List.foldr_reverse]
  congr 1
  funext n d
  rw [Nat.cast_id, Nat.mul_comm, Nat.add_comm]

/-- The values of digits are found one by one. -/
theorem mapM_digit?_eq_some_iff {base : Nat} {s : List Char} {values : List Nat} :
    s.mapM (digit? base) = some values ↔
      List.Forall₂ (fun c value => digit? base c = some value) s values := by
  induction s generalizing values with
  | nil =>
    rw [List.mapM_nil, List.forall₂_nil_left_iff]
    exact Option.some_inj.trans eq_comm
  | cons c s ih =>
    rw [List.mapM_cons, List.forall₂_cons_left_iff, Option.bind_eq_bind, Option.bind_eq_some_iff]
    constructor
    · rintro ⟨value, hvalue, hrest⟩
      obtain ⟨others, hothers, hcons⟩ := Option.bind_eq_some_iff.1 hrest
      exact ⟨value, others, hvalue, ih.1 hothers, (Option.some.inj hcons).symm⟩
    · rintro ⟨value, others, hvalue, hothers, rfl⟩
      exact ⟨value, hvalue, Option.bind_eq_some_iff.2 ⟨others, ih.2 hothers, rfl⟩⟩

/-- A numeral is a non-empty string of digits, and is read as their positional value. -/
theorem numeral?_eq_some_iff {base n : Nat} {s : List Char} :
    numeral? base s = some n ↔
      s ≠ [] ∧ ∃ values, List.Forall₂ (fun c value => digit? base c = some value) s values ∧
        Nat.ofDigits base values.reverse = n := by
  cases s with
  | nil => exact iff_of_false nofun fun h => h.1 rfl
  | cons c s =>
    rw [numeral?, List.isEmpty_cons, if_neg Bool.false_ne_true, Option.map_eq_some_iff]
    simp only [mapM_digit?_eq_some_iff, ofDigits_eq, ne_eq, List.cons_ne_nil, not_false_eq_true,
      true_and]

/-- A numeral is less than the power of the base that its length gives. -/
theorem numeral?_lt {base n : Nat} {s : List Char} (hbase : 1 < base)
    (h : numeral? base s = some n) : n < base ^ s.length := by
  obtain ⟨-, values, hvalues, rfl⟩ := numeral?_eq_some_iff.1 h
  have hall : ∀ value ∈ values, value < base := by
    clear h
    induction hvalues with
    | nil => exact nofun
    | cons hvalue _ ih =>
      exact List.forall_mem_cons.2 ⟨of_decide_eq_true (Option.filter_eq_some_iff.1 hvalue).2, ih⟩
  rw [hvalues.length_eq, ← List.length_reverse]
  exact Nat.ofDigits_lt_base_pow_length hbase fun value hmem => hall value (List.mem_reverse.1 hmem)

/-! ### Decimal numerals -/

/-- The digits below ten are those of ASCII. -/
theorem digit?_ten (c : Char) :
    digit? 10 c = if c.isDigit then some (c.toNat - '0'.toNat) else none := by
  have hdigit : '0' ≤ c ∧ c ≤ '9' ↔ c.isDigit := by
    simp only [Char.isDigit, Bool.and_eq_true, decide_eq_true_eq]
    exact Iff.rfl
  by_cases h : c.isDigit
  · have hle : c.toNat ≤ '9'.toNat := (hdigit.2 h).2
    have hlt : c.toNat - '0'.toNat < 10 := Nat.lt_succ_of_le (Nat.sub_le_sub_right hle _)
    rw [digit?, if_pos (hdigit.2 h), if_pos h, Option.filter_some, if_pos (decide_eq_true hlt)]
  · -- the value of a letter is at least ten
    rw [digit?, if_neg (mt hdigit.1 h), if_neg h]
    split
    · simp
    split
    · simp
    · rfl

/-- A decimal digit has its value. -/
theorem digit?_ten_eq_some_iff {c : Char} {value : Nat} :
    digit? 10 c = some value ↔ c.isDigit ∧ c.toNat - '0'.toNat = value := by
  rw [digit?_ten]
  split
  case isTrue h => rw [Option.some_inj, and_iff_right h]
  case isFalse h => exact iff_of_false nofun fun hdigit => h hdigit.1

/-- **Decimal numerals** are read as the number that they denote. -/
theorem decimal?_eq_some_iff {s : List Char} {n : Nat} : decimal? s = some n ↔ Denotes s n := by
  have hvalues : ∀ values, List.Forall₂ (fun c value => digit? 10 c = some value) s values ↔
      (∀ c ∈ s, c.isDigit) ∧ s.map (fun c => c.toNat - '0'.toNat) = values := by
    intro values
    simp only [digit?_ten_eq_some_iff, List.forall₂_and_left]
    rw [← List.forall₂_eq_eq_eq, List.forall₂_map_left_iff]
  rw [decimal?, numeral?_eq_some_iff]
  constructor
  · rintro ⟨hne, values, hdigits, rfl⟩
    obtain ⟨hall, rfl⟩ := (hvalues values).1 hdigits
    exact ⟨hne, hall, rfl⟩
  · rintro ⟨hne, hall, rfl⟩
    exact ⟨hne, _, (hvalues _).2 ⟨hall, rfl⟩, rfl⟩

/-- A number is denoted by its decimal digits. -/
theorem denotes_toString (n : Nat) : Denotes (toString n).toList n := by
  rw [Nat.toString_eq_ofList_toDigits, String.toList_ofList]
  refine ⟨Nat.toDigits_ne_nil, fun c hc => Nat.isDigit_of_mem_toDigits (by decide) (by decide) hc,
    ?_⟩
  have hvalue : Nat.ofDigitChars 10 (Nat.toDigits 10 n) 0 = n :=
    Nat.ofDigitChars_toDigits (by decide) (by decide)
  rw [← ofDigits_eq, ofDigits, List.foldl_map]
  simpa only [Nat.ofDigitChars, Nat.mul_comm 10] using hvalue

/-- A text denotes at most one number. -/
theorem Denotes.unique {s : List Char} {m n : Nat} (h : Denotes s m) (h' : Denotes s n) : m = n :=
  h.value_eq.symm.trans h'.value_eq

/-! ### Hexadecimal numerals -/

/-- The two ways to write a value below sixteen as a digit. -/
def IsHexDigit (c : Char) (value : Nat) : Prop :=
  value < 16 ∧ (c = value.digitChar ∨ c = value.digitChar.toUpper)

instance (c : Char) (value : Nat) : Decidable (IsHexDigit c value) :=
  inferInstanceAs (Decidable (_ ∧ _))

/-- A non-empty string of hexadecimal digits denotes its positional value. -/
structure DenotesHex (s : List Char) (n : Nat) : Prop where
  ne_nil : s ≠ []
  exists_values : ∃ values, List.Forall₂ IsHexDigit s values ∧ Nat.ofDigits 16 values.reverse = n

/-- The digits below sixteen are those of ASCII, with letters of either case. -/
theorem digit?_sixteen_eq_some_iff {c : Char} {value : Nat} :
    digit? 16 c = some value ↔ IsHexDigit c value := by
  constructor
  · intro h
    have hall : ∀ n < 103, ∀ value ∈ digit? 16 (Char.ofNat n), IsHexDigit (Char.ofNat n) value := by
      decide
    -- no digit comes behind the letter f
    have hlt : c.toNat < 103 := by
      obtain ⟨hvalue, -⟩ := Option.filter_eq_some_iff.1 h
      split at hvalue
      case isTrue hdigit => exact Nat.lt_of_le_of_lt hdigit.2 (by decide : '9'.toNat < 103)
      split at hvalue
      case isTrue hletter => exact Nat.lt_of_le_of_lt hletter.2 (by decide : 'f'.toNat < 103)
      split at hvalue
      case isTrue hletter => exact Nat.lt_of_le_of_lt hletter.2 (by decide : 'F'.toNat < 103)
      cases hvalue
    have hc := hall c.toNat hlt value
    rw [Char.ofNat_toNat] at hc
    exact hc h
  · have hall : ∀ value < 16, digit? 16 value.digitChar = some value ∧
        digit? 16 value.digitChar.toUpper = some value := by decide
    rintro ⟨hlt, rfl | rfl⟩
    · exact (hall value hlt).1
    · exact (hall value hlt).2

/-- **Hexadecimal numerals** are read as the number that they denote. -/
theorem hexadecimal?_eq_some_iff {s : List Char} {n : Nat} :
    hexadecimal? s = some n ↔ DenotesHex s n := by
  rw [hexadecimal?, numeral?_eq_some_iff]
  simp only [digit?_sixteen_eq_some_iff]
  exact ⟨fun ⟨hne, hvalues⟩ => ⟨hne, hvalues⟩, fun ⟨hne, hvalues⟩ => ⟨hne, hvalues⟩⟩

end HttpEcho.Text
