import HttpEcho.Text.Utf8

/-!
# Reading UTF-8

Reading undoes encoding: octets are well-formed UTF-8 exactly if they are the encoding of a text,
and they are read as that text (`Utf8.decode?_eq_some_iff`).

The encoding of one character is compared with octets as numbers, one statement for each of its
four lengths. `Utf8.Partial.Completes` says which octets finish a character that is being read; the
bounds on the second octet are what makes it agree with the encoding.
-/

namespace HttpEcho.Utf8

/-! ### The encoding of one character -/

private theorem toNat_ofNat_of_lt {n : Nat} (h : n < 256) : (UInt8.ofNat n).toNat = n := by
  simp [UInt8.toNat_ofNat', Nat.mod_eq_of_lt h]

/-- The octets of a character, by its size. -/
theorem toNat_utf8EncodeChar (c : Char) :
    (String.utf8EncodeChar c).map UInt8.toNat =
      if c.toNat ≤ 0x7F then [c.toNat]
      else if c.toNat ≤ 0x7FF then [c.toNat / 64 % 32 + 0xC0, c.toNat % 64 + 0x80]
      else if c.toNat ≤ 0xFFFF then
        [c.toNat / 4096 % 16 + 0xE0, c.toNat / 64 % 64 + 0x80, c.toNat % 64 + 0x80]
      else
        [c.toNat / 262144 % 8 + 0xF0, c.toNat / 4096 % 64 + 0x80, c.toNat / 64 % 64 + 0x80,
          c.toNat % 64 + 0x80] := by
  unfold String.utf8EncodeChar
  simp only [show c.val.toNat = c.toNat from rfl]
  have hone : c.toNat ≤ 0x7F → (UInt8.ofNat c.toNat).toNat = c.toNat := fun h =>
    toNat_ofNat_of_lt (by omega)
  have h64 : ∀ n, (UInt8.ofNat (n % 64 + 0x80)).toNat = n % 64 + 0x80 := fun n =>
    toNat_ofNat_of_lt (by omega)
  have h32 : ∀ n, (UInt8.ofNat (n % 32 + 0xC0)).toNat = n % 32 + 0xC0 := fun n =>
    toNat_ofNat_of_lt (by omega)
  have h16 : ∀ n, (UInt8.ofNat (n % 16 + 0xE0)).toNat = n % 16 + 0xE0 := fun n =>
    toNat_ofNat_of_lt (by omega)
  have h8 : ∀ n, (UInt8.ofNat (n % 8 + 0xF0)).toNat = n % 8 + 0xF0 := fun n =>
    toNat_ofNat_of_lt (by omega)
  split
  · simp only [List.map_cons, List.map_nil, hone ‹_›]
  · split
    · simp only [List.map_cons, List.map_nil, h32, h64]
    · split
      · simp only [List.map_cons, List.map_nil, h16, h64]
      · simp only [List.map_cons, List.map_nil, h8, h64]

/-- Octets are compared by their values. -/
theorem eq_utf8EncodeChar_iff {bytes : Bytes} {c : Char} :
    bytes = String.utf8EncodeChar c ↔
      bytes.map UInt8.toNat = (String.utf8EncodeChar c).map UInt8.toNat :=
  ⟨congrArg _, fun h => List.map_inj_right (fun _ _ => UInt8.toNat_inj.1) |>.1 h⟩

theorem toNat_valid (c : Char) : c.toNat < 0xD800 ∨ 0xDFFF < c.toNat ∧ c.toNat < 0x110000 := c.valid

/-- The character with a number that is allowed has that number. -/
theorem toNat_ofNat {n : Nat} (h : n < 0xD800 ∨ 0xDFFF < n ∧ n < 0x110000) :
    (Char.ofNat n).toNat = n := by
  have hvalid : n.isValidChar := h
  rw [Char.ofNat, dif_pos hvalid]
  rfl

theorem eq_ofNat_iff {c : Char} {n : Nat} (h : n < 0xD800 ∨ 0xDFFF < n ∧ n < 0x110000) :
    c = Char.ofNat n ↔ c.toNat = n := by
  constructor
  · rintro rfl
    exact toNat_ofNat h
  · rintro rfl
    exact (Char.ofNat_toNat c).symm

/-- Whether an octet continues a character. -/
def IsTail (b : UInt8) : Prop := 0x80 ≤ b.toNat ∧ b.toNat ≤ 0xBF

theorem encode_two_iff {b : UInt8} {tail : Bytes} {c : Char} (hb : 0xC2 ≤ b.toNat)
    (hb' : b.toNat < 0xE0) :
    b :: tail = String.utf8EncodeChar c ↔
      ∃ x, tail = [x] ∧ IsTail x ∧ c = Char.ofNat ((b.toNat - 0xC0) * 64 + (x.toNat - 0x80)) := by
  have hc := toNat_valid c
  rw [eq_utf8EncodeChar_iff, toNat_utf8EncodeChar]
  constructor
  · intro h
    repeat' split at h
    all_goals
      simp only [List.map_cons, List.cons.injEq, List.map_eq_cons_iff, List.map_eq_nil_iff] at h
    · omega
    · obtain ⟨h1, x, _, rfl, h2, rfl⟩ := h
      refine ⟨x, rfl, ⟨by omega, by omega⟩, (eq_ofNat_iff (by omega)).2 (by omega)⟩
    · omega
    · omega
  · rintro ⟨x, rfl, ⟨hx, hx'⟩, hx''⟩
    rw [eq_ofNat_iff (by omega)] at hx''
    rw [if_neg (by omega), if_pos (by omega)]
    simp only [List.map_cons, List.map_nil, List.cons.injEq, and_true]
    omega

theorem encode_three_iff {b : UInt8} {tail : Bytes} {c : Char} (hb : 0xE0 ≤ b.toNat)
    (hb' : b.toNat < 0xF0) :
    b :: tail = String.utf8EncodeChar c ↔
      ∃ x y, tail = [x, y] ∧ IsTail x ∧ IsTail y ∧ (b.toNat = 0xE0 → 0xA0 ≤ x.toNat) ∧
        (b.toNat = 0xED → x.toNat ≤ 0x9F) ∧
        c = Char.ofNat (((b.toNat - 0xE0) * 64 + (x.toNat - 0x80)) * 64 + (y.toNat - 0x80)) := by
  have hc := toNat_valid c
  rw [eq_utf8EncodeChar_iff, toNat_utf8EncodeChar]
  constructor
  · intro h
    repeat' split at h
    all_goals
      simp only [List.map_cons, List.cons.injEq, List.map_eq_cons_iff, List.map_eq_nil_iff] at h
    · omega
    · omega
    · obtain ⟨h1, x, _, rfl, h2, y, _, rfl, h3, rfl⟩ := h
      refine ⟨x, y, rfl, ⟨by omega, by omega⟩, ⟨by omega, by omega⟩, by omega, by omega,
          (eq_ofNat_iff (by omega)).2 (by omega)⟩
    · omega
  · rintro ⟨x, y, rfl, ⟨hx, hx'⟩, ⟨hy, hy'⟩, h1, h2, h3⟩
    rw [eq_ofNat_iff (by omega)] at h3
    rw [if_neg (by omega), if_neg (by omega), if_pos (by omega)]
    simp only [List.map_cons, List.map_nil, List.cons.injEq, and_true]
    omega

theorem encode_four_iff {b : UInt8} {tail : Bytes} {c : Char} (hb : 0xF0 ≤ b.toNat)
    (hb' : b.toNat < 0xF5) :
    b :: tail = String.utf8EncodeChar c ↔
      ∃ x y z, tail = [x, y, z] ∧ IsTail x ∧ IsTail y ∧ IsTail z ∧
        (b.toNat = 0xF0 → 0x90 ≤ x.toNat) ∧ (b.toNat = 0xF4 → x.toNat ≤ 0x8F) ∧
        c = Char.ofNat ((((b.toNat - 0xF0) * 64 + (x.toNat - 0x80)) * 64 + (y.toNat - 0x80)) * 64
          + (z.toNat - 0x80)) := by
  have hc := toNat_valid c
  rw [eq_utf8EncodeChar_iff, toNat_utf8EncodeChar]
  constructor
  · intro h
    repeat' split at h
    all_goals
      simp only [List.map_cons, List.cons.injEq, List.map_eq_cons_iff, List.map_eq_nil_iff] at h
    · omega
    · omega
    · omega
    · obtain ⟨h1, x, _, rfl, h2, y, _, rfl, h3, z, _, rfl, h4, rfl⟩ := h
      refine ⟨x, y, z, rfl, ⟨by omega, by omega⟩, ⟨by omega, by omega⟩, ⟨by omega, by omega⟩,
          by omega, by omega, (eq_ofNat_iff (by omega)).2 (by omega)⟩
  · rintro ⟨x, y, z, rfl, ⟨hx, hx'⟩, ⟨hy, hy'⟩, ⟨hz, hz'⟩, h1, h2, h3⟩
    rw [eq_ofNat_iff (by omega)] at h3
    rw [if_neg (by omega), if_neg (by omega), if_neg (by omega)]
    simp only [List.map_cons, List.map_nil, List.cons.injEq, and_true]
    omega

theorem encode_one_iff {b : UInt8} {tail : Bytes} {c : Char} (hb : b.toNat < 0x80) :
    b :: tail = String.utf8EncodeChar c ↔ tail = [] ∧ c = Char.ofNat b.toNat := by
  rw [eq_utf8EncodeChar_iff, toNat_utf8EncodeChar, eq_ofNat_iff (by omega)]
  constructor
  · intro h
    repeat' split at h
    all_goals
      simp only [List.map_cons, List.cons.injEq, List.map_eq_nil_iff] at h
    · exact ⟨h.2, h.1.symm⟩
    all_goals omega
  · rintro ⟨rfl, h⟩
    rw [if_pos (by omega), h]
    rfl

private theorem encode_ne {b : UInt8} {tail : Bytes} {c : Char}
    (hb : 0x80 ≤ b.toNat ∧ b.toNat < 0xC2 ∨ 0xF5 ≤ b.toNat) :
    b :: tail ≠ String.utf8EncodeChar c := by
  have hc := toNat_valid c
  rw [ne_eq, eq_utf8EncodeChar_iff, toNat_utf8EncodeChar]
  intro h
  repeat' split at h
  all_goals
    simp only [List.map_cons, List.cons.injEq] at h
    omega

/-! ### Reading the octets of one character -/

/-- The octets `tail` complete an open character, and the character is `c`. -/
def Partial.Completes (c : Char) : Partial → Bytes → Prop
  | _, [] => False
  | p, b :: tail =>
    (p.low ≤ b ∧ b ≤ p.high) ∧
      if p.missing ≤ 1 then tail = [] ∧ c = Char.ofNat (p.bits * 64 + (b.toNat - 0x80))
      else Completes c ⟨p.missing - 1, 0x80, 0xBF, p.bits * 64 + (b.toNat - 0x80)⟩ tail

private theorem completes_one {low high : UInt8} {bits : Nat} {tail : Bytes} {c : Char} :
    Partial.Completes c ⟨1, low, high, bits⟩ tail ↔
      ∃ x, tail = [x] ∧ (low.toNat ≤ x.toNat ∧ x.toNat ≤ high.toNat) ∧
        c = Char.ofNat (bits * 64 + (x.toNat - 0x80)) := by
  cases tail with
  | nil => simp [Partial.Completes]
  | cons x tail =>
    simp only [Partial.Completes, UInt8.le_iff_toNat_le, Nat.le_refl, if_true, List.cons.injEq]
    constructor
    · rintro ⟨hx, rfl, hc⟩
      exact ⟨x, ⟨rfl, rfl⟩, hx, hc⟩
    · rintro ⟨_, ⟨rfl, rfl⟩, hx, hc⟩
      exact ⟨hx, rfl, hc⟩

private theorem completes_more {n : Nat} {low high : UInt8} {bits : Nat} {tail : Bytes} {c : Char}
    (h : 1 < n) :
    Partial.Completes c ⟨n, low, high, bits⟩ tail ↔
      ∃ x rest, tail = x :: rest ∧ (low.toNat ≤ x.toNat ∧ x.toNat ≤ high.toNat) ∧
        Partial.Completes c ⟨n - 1, 0x80, 0xBF, bits * 64 + (x.toNat - 0x80)⟩ rest := by
  cases tail with
  | nil => simp [Partial.Completes]
  | cons x tail =>
    simp only [Partial.Completes, UInt8.le_iff_toNat_le, if_neg (Nat.not_le.2 h), List.cons.injEq]
    constructor
    · rintro ⟨hx, hc⟩
      exact ⟨x, tail, ⟨rfl, rfl⟩, hx, hc⟩
    · rintro ⟨_, _, ⟨rfl, rfl⟩, hx, hc⟩
      exact ⟨hx, hc⟩

private theorem completes_two {low high : UInt8} {bits : Nat} {tail : Bytes} {c : Char} :
    Partial.Completes c ⟨2, low, high, bits⟩ tail ↔
      ∃ x y, tail = [x, y] ∧ (low.toNat ≤ x.toNat ∧ x.toNat ≤ high.toNat) ∧ IsTail y ∧
        c = Char.ofNat ((bits * 64 + (x.toNat - 0x80)) * 64 + (y.toNat - 0x80)) := by
  rw [completes_more (by omega)]
  constructor
  · rintro ⟨x, _, rfl, hx, h⟩
    obtain ⟨y, rfl, hy, hc⟩ := completes_one.1 h
    exact ⟨x, y, rfl, hx, hy, hc⟩
  · rintro ⟨x, y, rfl, hx, hy, hc⟩
    exact ⟨x, [y], rfl, hx, completes_one.2 ⟨y, rfl, hy, hc⟩⟩

private theorem completes_three {low high : UInt8} {bits : Nat} {tail : Bytes} {c : Char} :
    Partial.Completes c ⟨3, low, high, bits⟩ tail ↔
      ∃ x y z, tail = [x, y, z] ∧ (low.toNat ≤ x.toNat ∧ x.toNat ≤ high.toNat) ∧ IsTail y ∧
        IsTail z ∧ c = Char.ofNat (((bits * 64 + (x.toNat - 0x80)) * 64 + (y.toNat - 0x80)) * 64
          + (z.toNat - 0x80)) := by
  rw [completes_more (by omega)]
  constructor
  · rintro ⟨x, _, rfl, hx, h⟩
    obtain ⟨y, z, rfl, hy, hz, hc⟩ := completes_two.1 h
    exact ⟨x, y, z, rfl, hx, hy, hz, hc⟩
  · rintro ⟨x, y, z, rfl, hx, hy, hz, hc⟩
    exact ⟨x, [y, z], rfl, hx, completes_two.2 ⟨y, z, rfl, hy, hz, hc⟩⟩

/-- What a lead octet does, against the characters whose encoding begins with it: it is such a
character, it opens one that exactly the octets of such a character complete, or there is none. -/
theorem lead_cases (b : UInt8) :
    ((∀ tail c, b :: tail = String.utf8EncodeChar c ↔ tail = [] ∧ c = Char.ofNat b.toNat) ∧
      ∀ us, lead us b = ⟨some (Char.ofNat b.toNat) :: us, none⟩) ∨
    (∃ p : Partial, (∀ tail c, b :: tail = String.utf8EncodeChar c ↔ p.Completes c tail) ∧
      ∀ us, lead us b = ⟨us, some p⟩) ∨
    ((∀ tail c, b :: tail ≠ String.utf8EncodeChar c) ∧
      ∀ us, lead us b = ⟨none :: us, none⟩) := by
  have hlead : ∀ us, lead us b =
      if b.toNat < 0x80 then ⟨some (Char.ofNat b.toNat) :: us, none⟩
      else if b.toNat < 0xC2 then ⟨none :: us, none⟩
      else if b.toNat < 0xE0 then ⟨us, some ⟨1, 0x80, 0xBF, b.toNat - 0xC0⟩⟩
      else if b.toNat = 0xE0 then ⟨us, some ⟨2, 0xA0, 0xBF, 0⟩⟩
      else if b.toNat = 0xED then ⟨us, some ⟨2, 0x80, 0x9F, 0x0D⟩⟩
      else if b.toNat < 0xF0 then ⟨us, some ⟨2, 0x80, 0xBF, b.toNat - 0xE0⟩⟩
      else if b.toNat = 0xF0 then ⟨us, some ⟨3, 0x90, 0xBF, 0⟩⟩
      else if b.toNat < 0xF4 then ⟨us, some ⟨3, 0x80, 0xBF, b.toNat - 0xF0⟩⟩
      else if b.toNat = 0xF4 then ⟨us, some ⟨3, 0x80, 0x8F, 4⟩⟩
      else ⟨none :: us, none⟩ := by
    intro us
    simp only [lead, UInt8.lt_iff_toNat_lt, ← UInt8.toNat_inj, UInt8.reduceToNat]
  by_cases h1 : b.toNat < 0x80
  · exact .inl ⟨fun _ _ => encode_one_iff h1, fun us => by rw [hlead, if_pos h1]⟩
  by_cases h2 : b.toNat < 0xC2
  · refine .inr (.inr ⟨fun _ _ => encode_ne (by omega), fun us => ?_⟩)
    rw [hlead, if_neg h1, if_pos h2]
  by_cases h3 : b.toNat < 0xE0
  · refine .inr (.inl ⟨_, fun _ _ => ?_, fun us => by rw [hlead, if_neg h1, if_neg h2, if_pos h3]⟩)
    rw [encode_two_iff (by omega) h3, completes_one]
    rfl
  by_cases h4 : b.toNat < 0xF0
  · -- of the lead octets of three, E0 and ED narrow the bounds on the second one
    have hlead' : ∀ us, lead us b = ⟨us, some ⟨2, if b.toNat = 0xE0 then 0xA0 else 0x80,
        if b.toNat = 0xED then 0x9F else 0xBF, b.toNat - 0xE0⟩⟩ := by
      intro us
      rw [hlead, if_neg h1, if_neg h2, if_neg h3]
      by_cases h5 : b.toNat = 0xE0
      · rw [if_pos h5, if_pos h5, if_neg (by omega), h5]
      by_cases h6 : b.toNat = 0xED
      · rw [if_neg h5, if_pos h6, if_neg h5, if_pos h6, h6]
      · rw [if_neg h5, if_neg h6, if_pos h4, if_neg h5, if_neg h6]
    refine .inr (.inl ⟨_, fun _ _ => ?_, hlead'⟩)
    rw [encode_three_iff (by omega) h4, completes_two]
    refine exists_congr fun x => exists_congr fun y => and_congr_right fun _ => ?_
    by_cases h5 : b.toNat = 0xE0 <;> by_cases h6 : b.toNat = 0xED <;>
      simp only [h5, h6, IsTail, if_true, if_false, UInt8.reduceToNat] <;> grind
  by_cases h5 : b.toNat < 0xF5
  · -- of the lead octets of four, F0 and F4 do
    have hlead' : ∀ us, lead us b = ⟨us, some ⟨3, if b.toNat = 0xF0 then 0x90 else 0x80,
        if b.toNat = 0xF4 then 0x8F else 0xBF, b.toNat - 0xF0⟩⟩ := by
      intro us
      rw [hlead, if_neg h1, if_neg h2, if_neg h3, if_neg (by omega), if_neg (by omega), if_neg h4]
      by_cases h6 : b.toNat = 0xF0
      · rw [if_pos h6, if_pos h6, if_neg (by omega), h6]
      by_cases h7 : b.toNat = 0xF4
      · rw [if_neg h6, if_neg (by omega), if_pos h7, if_neg h6, if_pos h7, h7]
      · rw [if_neg h6, if_pos (by omega), if_neg h6, if_neg h7]
    refine .inr (.inl ⟨_, fun _ _ => ?_, hlead'⟩)
    rw [encode_four_iff (by omega) h5, completes_three]
    refine exists_congr fun x => exists_congr fun y => exists_congr fun z =>
      and_congr_right fun _ => ?_
    by_cases h6 : b.toNat = 0xF0 <;> by_cases h7 : b.toNat = 0xF4 <;>
      simp only [h6, h7, IsTail, if_true, if_false, UInt8.reduceToNat] <;> grind
  · refine .inr (.inr ⟨fun _ _ => encode_ne (by omega), fun us => ?_⟩)
    rw [hlead]
    repeat rw [if_neg (by omega)]

/-! ### Reading a whole text -/

private theorem push_some (us : List (Option Char)) (p : Partial) (b : UInt8) :
    Progress.push ⟨us, some p⟩ b =
      if p.low ≤ b ∧ b ≤ p.high then
        if p.missing ≤ 1 then ⟨some (Char.ofNat (p.bits * 64 + (b.toNat - 0x80))) :: us, none⟩
        else ⟨us, some ⟨p.missing - 1, 0x80, 0xBF, p.bits * 64 + (b.toNat - 0x80)⟩⟩
      else lead (none :: us) b :=
  rfl

/-- The units of octets that come after an open character, or after none. -/
private def unitsFrom (open? : Option Partial) (bytes : Bytes) : List (Option Char) :=
  (bytes.foldl Progress.push ⟨[], open?⟩).finish

/-- Decoding octet by octet gives the units of all octets. -/
private theorem finish_foldl_push (us : List (Option Char)) (open? : Option Partial)
    (bytes : Bytes) :
    (bytes.foldl Progress.push ⟨us, open?⟩).finish = us.reverse ++ unitsFrom open? bytes := by
  induction bytes generalizing us open? with
  | nil => cases open? <;> simp [unitsFrom, Progress.finish]
  | cons b bytes ih =>
    -- an octet that begins a unit does so whatever was read before it
    have hlead : ∀ vs, (bytes.foldl Progress.push (lead vs b)).finish
        = vs.reverse ++ (bytes.foldl Progress.push (lead [] b)).finish := by
      intro vs
      rcases lead_cases b with ⟨-, hl⟩ | ⟨p, -, hl⟩ | ⟨-, hl⟩
      all_goals
        simp only [hl, ih]
        simp
    cases open? with
    | none => exact hlead us
    | some p =>
      simp only [unitsFrom, List.foldl_cons, Progress.push]
      split
      · split
        · rw [ih, ih [_]]
          simp
        · rw [ih, ih []]
          simp
      · rw [hlead, hlead [none]]
        simp

/-- A whole character in front is the first unit. -/
theorem units_encodeChar_append (c : Char) (rest : Bytes) :
    units (String.utf8EncodeChar c ++ rest) = some c :: units rest := by
  -- once open, the character is completed by the octets after the first one
  have hopen : ∀ (tail : Bytes) (p : Partial) us, p.Completes c tail →
      tail.foldl Progress.push ⟨us, some p⟩ = ⟨some c :: us, none⟩ := by
    intro tail
    induction tail with
    | nil => intro p us h; exact h.elim
    | cons b tail ih =>
      intro p us h
      rw [Partial.Completes] at h
      obtain ⟨hb, h⟩ := h
      rw [List.foldl_cons, push_some, if_pos hb]
      by_cases hlast : p.missing ≤ 1
      · rw [if_pos hlast] at h ⊢
        obtain ⟨rfl, hc⟩ := h
        rw [List.foldl_nil, hc]
      · rw [if_neg hlast] at h ⊢
        exact ih _ us h
  have hchar : (String.utf8EncodeChar c).foldl Progress.push ⟨[], none⟩ = ⟨[some c], none⟩ := by
    obtain ⟨b, tail, he⟩ := List.exists_cons_of_ne_nil (String.utf8EncodeChar_ne_nil (c := c))
    rw [he, List.foldl_cons]
    change tail.foldl Progress.push (lead [] b) = _
    rcases lead_cases b with ⟨hone, hl⟩ | ⟨p, hmore, hl⟩ | ⟨hno, -⟩
    · obtain ⟨rfl, rfl⟩ := (hone tail c).1 he.symm
      rw [hl]
      rfl
    · rw [hl]
      exact hopen tail p [] ((hmore tail c).1 he.symm)
    · exact absurd he.symm (hno tail c)
  rw [units, List.foldl_append, hchar, finish_foldl_push]
  rfl

/-- Encoded characters are read back, one unit for each. -/
theorem units_encodeChars_append (cs : List Char) (rest : Bytes) :
    units (encodeChars cs ++ rest) = cs.map some ++ units rest := by
  induction cs with
  | nil => rfl
  | cons c cs ih =>
    rw [encodeChars, List.flatMap_cons, List.append_assoc, units_encodeChar_append]
    exact congrArg (some c :: ·) ih

/-- Characters that are encoded are decoded. -/
theorem units_encodeChars (cs : List Char) : units (encodeChars cs) = cs.map some := by
  simpa [units, Progress.finish] using units_encodeChars_append cs []

/-- An open character that does not end as a malformed stretch is completed. -/
private theorem exists_completes {p : Partial} {bytes : Bytes} {cs : List Char}
    (h : unitsFrom (some p) bytes = cs.map some) :
    ∃ c tail rest, bytes = tail ++ rest ∧ p.Completes c tail ∧
      unitsFrom (some p) bytes = some c :: units rest := by
  have hnone : none ∉ unitsFrom (some p) bytes := by
    rw [h]
    simp
  clear h
  induction bytes generalizing p with
  | nil => exact absurd List.mem_cons_self hnone
  | cons b bytes ih =>
    by_cases hb : p.low ≤ b ∧ b ≤ p.high
    · by_cases hlast : p.missing ≤ 1
      · refine ⟨Char.ofNat (p.bits * 64 + (b.toNat - 0x80)), [b], bytes, rfl, ?_, ?_⟩
        · rw [Partial.Completes, if_pos hlast]
          exact ⟨hb, rfl, rfl⟩
        · rw [unitsFrom, List.foldl_cons, push_some, if_pos hb, if_pos hlast, finish_foldl_push]
          rfl
      · have hstep : unitsFrom (some p) (b :: bytes) = unitsFrom (some ⟨p.missing - 1, 0x80, 0xBF,
            p.bits * 64 + (b.toNat - 0x80)⟩) bytes := by
          rw [unitsFrom, List.foldl_cons, push_some, if_pos hb, if_neg hlast]
          rfl
        rw [hstep] at hnone ⊢
        obtain ⟨c, tail, rest, rfl, hc, hu⟩ := ih hnone
        refine ⟨c, b :: tail, rest, rfl, ?_, hu⟩
        rw [Partial.Completes, if_neg hlast]
        exact ⟨hb, hc⟩
    · -- the stretch ends here, and it is the first unit
      refine absurd ?_ hnone
      rw [unitsFrom, List.foldl_cons, push_some, if_neg hb]
      rcases lead_cases b with ⟨-, hl⟩ | ⟨q, -, hl⟩ | ⟨-, hl⟩
      all_goals
        rw [hl, finish_foldl_push]
        simp

/-- Octets without a malformed stretch are the encoding of the characters read. -/
theorem eq_encodeChars_of_units {bytes : Bytes} {cs : List Char}
    (h : units bytes = cs.map some) : bytes = encodeChars cs := by
  induction hn : bytes.length using Nat.strongRecOn generalizing bytes cs with
  | _ n ih =>
    cases bytes with
    | nil =>
      obtain rfl : cs = [] := by simpa [units, Progress.finish] using h.symm
      rfl
    | cons b bytes =>
      have hb : units (b :: bytes) = (bytes.foldl Progress.push (lead [] b)).finish := rfl
      -- in each case the first character takes `head`, and the others take `rest`
      have key : ∀ c head rest, b :: bytes = head ++ rest → head = String.utf8EncodeChar c →
          units (b :: bytes) = some c :: units rest → b :: bytes = encodeChars cs := by
        intro c head rest hsplit hhead hunits
        rw [hunits] at h
        obtain ⟨c', cs, rfl⟩ : ∃ c' cs', cs = c' :: cs' := by
          cases cs with
          | nil => simp at h
          | cons c' cs => exact ⟨c', cs, rfl⟩
        simp only [List.map_cons, List.cons.injEq, Option.some.injEq] at h
        obtain ⟨rfl, h⟩ := h
        have hlen : rest.length < n := by
          have := congrArg List.length hsplit
          have := c.utf8Size_pos
          rw [List.length_append, hhead, String.length_utf8EncodeChar] at *
          omega
        rw [hsplit, hhead, ih rest.length hlen h rfl]
        rfl
      rcases lead_cases b with ⟨hone, hl⟩ | ⟨p, hmore, hl⟩ | ⟨-, hl⟩
      · refine key _ [b] bytes rfl ((hone [] _).2 ⟨rfl, rfl⟩) ?_
        rw [hb, hl, finish_foldl_push]
        rfl
      · rw [hb, hl] at h
        obtain ⟨c, tail, rest, rfl, hc, hu⟩ := exists_completes h
        refine key c (b :: tail) rest rfl ((hmore tail c).2 hc) ?_
        rw [hb, hl]
        exact hu
      · rw [hb, hl, finish_foldl_push] at h
        have : none ∈ cs.map some := by
          rw [← h]
          simp
        simp at this

private theorem mapM_id_eq_some_iff {us : List (Option Char)} {cs : List Char} :
    us.mapM id = some cs ↔ us = cs.map some := by
  induction us generalizing cs with
  | nil => cases cs <;> simp
  | cons u us ih =>
    cases u with
    | none => cases cs <;> simp [List.mapM_cons]
    | some d =>
      simp only [List.mapM_cons, id_eq, Option.bind_eq_bind, Option.bind_some,
        Option.bind_eq_some_iff, ih, Option.pure_def, Option.some.injEq]
      cases cs with
      | nil => simp
      | cons c cs =>
        constructor
        · rintro ⟨_, rfl, h⟩
          rw [← h]
          rfl
        · intro h
          simp only [List.map_cons, List.cons.injEq, Option.some.injEq] at h
          exact ⟨cs, h.2, by rw [h.1]⟩

/-- **Well-formed UTF-8 is the encoding of a text**, and it is read as that text. -/
theorem decode?_eq_some_iff {bytes : Bytes} {cs : List Char} :
    decode? bytes = some cs ↔ bytes = encodeChars cs := by
  rw [decode?, mapM_id_eq_some_iff]
  constructor
  · exact eq_encodeChars_of_units
  · rintro rfl
    exact units_encodeChars cs

/-- Characters that are encoded are decoded. -/
@[simp]
theorem decode?_encodeChars (cs : List Char) : decode? (encodeChars cs) = some cs :=
  decode?_eq_some_iff.2 rfl

/-- Lossy reading loses nothing of well-formed UTF-8. -/
@[simp]
theorem lossy_encode (s : String) : lossy (encode s) = s := by
  rw [lossy, encode, units_encodeChars, List.map_map]
  change String.ofList (s.toList.map fun c => c) = s
  rw [List.map_id', String.ofList_toList]

@[simp]
theorem encodeChars_nil : encodeChars [] = [] := rfl

theorem encodeChars_cons (c : Char) (cs : List Char) :
    encodeChars (c :: cs) = String.utf8EncodeChar c ++ encodeChars cs := rfl

theorem encodeChars_append (cs ds : List Char) :
    encodeChars (cs ++ ds) = encodeChars cs ++ encodeChars ds :=
  List.flatMap_append

/-- Texts with the same encoding are the same. -/
theorem encodeChars_inj {cs ds : List Char} : encodeChars cs = encodeChars ds ↔ cs = ds := by
  refine ⟨fun h => ?_, congrArg _⟩
  have := decode?_encodeChars cs
  rw [h, decode?_encodeChars] at this
  exact (Option.some.inj this).symm

theorem encode_append (s t : String) : encode (s ++ t) = encode s ++ encode t := by
  rw [encode, String.toList_append, encodeChars_append]
  rfl

theorem encode_inj {s t : String} : encode s = encode t ↔ s = t := by
  rw [encode, encode, encodeChars_inj, String.toList_inj]

theorem encodeChars_eq_nil_iff {cs : List Char} : encodeChars cs = [] ↔ cs = [] := by
  rw [← encodeChars_nil, encodeChars_inj]

theorem encode_eq_nil_iff {s : String} : encode s = [] ↔ s = "" := by
  rw [encode, encodeChars_eq_nil_iff, String.toList_eq_nil_iff]

/-! ### ASCII -/

/-- An octet below 80 hexadecimal is a character by itself. -/
theorem singleton_eq_utf8EncodeChar {b : UInt8} (h : b.toNat < 0x80) :
    [b] = String.utf8EncodeChar (Char.ofNat b.toNat) :=
  (encode_one_iff h).2 ⟨rfl, rfl⟩

/-- Octets below 80 hexadecimal are the encoding of a text. -/
theorem exists_encode_of_ascii {bytes : Bytes} (h : ∀ b ∈ bytes, b.toNat < 0x80) :
    ∃ s, bytes = encode s := by
  refine ⟨String.ofList (bytes.map fun b => Char.ofNat b.toNat), ?_⟩
  rw [encode, String.toList_ofList]
  induction bytes with
  | nil => rfl
  | cons b bytes ih =>
    rw [List.map_cons, encodeChars_cons,
      ← singleton_eq_utf8EncodeChar (h b List.mem_cons_self), ← ih fun c hc =>
        h c (List.mem_cons_of_mem _ hc)]
    rfl

/-- An ASCII octet stands in the encoding of no other character than its own. -/
theorem eq_ofNat_of_mem_utf8EncodeChar {b : UInt8} (h : b.toNat < 0x80) {c : Char}
    (hb : b ∈ String.utf8EncodeChar c) : c = Char.ofNat b.toNat := by
  have hmap := List.mem_map_of_mem (f := UInt8.toNat) hb
  rw [toNat_utf8EncodeChar] at hmap
  rw [eq_ofNat_iff (by omega)]
  repeat' split at hmap
  all_goals
    simp only [List.mem_cons, List.not_mem_nil, or_false] at hmap
    omega

/-- An ASCII octet stands in an encoding only for its own character. -/
theorem mem_encodeChars_iff {b : UInt8} (h : b.toNat < 0x80) {cs : List Char} :
    b ∈ encodeChars cs ↔ Char.ofNat b.toNat ∈ cs := by
  rw [encodeChars, List.mem_flatMap]
  constructor
  · rintro ⟨c, hc, hb⟩
    exact eq_ofNat_of_mem_utf8EncodeChar h hb ▸ hc
  · intro hc
    refine ⟨_, hc, ?_⟩
    rw [← singleton_eq_utf8EncodeChar h]
    exact List.mem_singleton_self b

/-- An encoding can be cut at an ASCII octet: what stands on either side is an encoding too. -/
theorem encodeChars_eq_append_cons_iff {b : UInt8} (h : b.toNat < 0x80) {cs : List Char}
    {before after : Bytes} :
    encodeChars cs = before ++ b :: after ↔
      ∃ front back, cs = front ++ Char.ofNat b.toNat :: back ∧ before = encodeChars front ∧
        after = encodeChars back := by
  have hone := singleton_eq_utf8EncodeChar h
  constructor
  · intro hsplit
    induction cs generalizing before with
    | nil => simp at hsplit
    | cons c cs ih =>
      rw [encodeChars_cons] at hsplit
      obtain ⟨before', rfl, hrest⟩ | ⟨tail, hchar, hrest⟩ := List.append_eq_append_iff.1 hsplit
      · obtain ⟨front, back, rfl, rfl, rfl⟩ := ih hrest
        exact ⟨c :: front, back, rfl, (encodeChars_cons c front).symm, rfl⟩
      cases tail with
      | nil =>
        have hrest : encodeChars cs = [] ++ b :: after := hrest.symm
        obtain ⟨front, back, rfl, hfront, rfl⟩ := ih hrest
        refine ⟨c :: front, back, rfl, ?_, rfl⟩
        rw [encodeChars_cons, ← hfront, hchar]
        simp
      | cons b' tail =>
        -- the octet stands inside the first character, which is then this octet alone
        obtain ⟨rfl, rfl⟩ := List.cons.inj hrest
        have hmem : b ∈ String.utf8EncodeChar c := by
          rw [hchar]
          exact List.mem_append_right _ List.mem_cons_self
        obtain rfl := eq_ofNat_of_mem_utf8EncodeChar h hmem
        rw [← hone] at hchar
        obtain ⟨rfl, rfl⟩ : before = [] ∧ tail = [] := by
          cases before with
          | nil => simpa [eq_comm] using hchar
          | cons b' before => simp at hchar
        exact ⟨[], cs, rfl, rfl, rfl⟩
  · rintro ⟨front, back, rfl, rfl, rfl⟩
    rw [encodeChars_append, encodeChars_cons, ← hone]
    rfl

end HttpEcho.Utf8
