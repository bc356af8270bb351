import HttpEcho.Gzip.Inflater

/-!
# What deflated data holds

Deflated data holds one output (`Deflate.Inflates`). The relations follow the format: a coded block
is literals and back references up to the symbol for its end, a stored block is a length and as many
octets, and data is blocks up to and with the last one.

An inflater that goes on as long as it can comes to rest at the end of the data, or where the data
is malformed (`Deflate.Inflater.last`). It rests behind data that holds an output, with that output
written out, and behind no other data (`Deflate.inflates_iff_last`). An inflater that is stopped on
the way has written out a part of that, and comes to the same rest; it gives up only if it would
come to rest at malformed data without having been stopped (`Deflate.Inflater.fill?_eq_none_iff`).
-/

namespace HttpEcho.Deflate

variable {literals distances : CodeTree} {codes : Codes} {isLast : Bool} {out out' : Array UInt8}
  {bits bits' : Bits} {bytes rest : Bytes}

/-! ### Outputs -/

/-- Literals and back references up to the end of their block take an output to another one, and
leave the bits behind the end. -/
inductive Coded (literals distances : CodeTree) :
    Array UInt8 → Bits → Array UInt8 → Bits → Prop
  | stop {out : Array UInt8} {bits rest : Bits} {symbol : Nat} :
      literals.decode bits = .ok (symbol, rest) → Token.ofSymbol symbol = .stop →
        Coded literals distances out bits out rest
  | literal {out out' : Array UInt8} {bits rest bits' : Bits} {symbol : Nat} {octet : UInt8} :
      literals.decode bits = .ok (symbol, rest) → Token.ofSymbol symbol = .literal octet →
        Coded literals distances (out.push octet) rest out' bits' →
          Coded literals distances out bits out' bits'
  | reference {out out' : Array UInt8} {bits rest rest' bits' : Bits} {symbol place : Nat}
      {reference : Reference} :
      literals.decode bits = .ok (symbol, rest) → Token.ofSymbol symbol = .reference place →
        readReference distances place rest = .ok (reference, rest') →
          Coded literals distances (copy reference.distance reference.length out) rest' out' bits' →
            Coded literals distances out bits out' bits'

/-- A stored block adds the octets that it holds. -/
inductive Stored : Array UInt8 → Bytes → Array UInt8 → Bytes → Prop
  | mk {out : Array UInt8} {a b c d : UInt8} {octets rest : Bytes} :
      octets.length = a.toNat + 256 * b.toNat →
        octets.length + (c.toNat + 256 * d.toNat) = 0xFFFF →
          Stored out (a :: b :: c :: d :: (octets ++ rest)) (out ++ octets) rest

/-- The three kinds of block. -/
inductive Block : Nat → Array UInt8 → Bits → Array UInt8 → Bits → Prop
  | stored {out out' : Array UInt8} {bits : Bits} {rest : Bytes} :
      Stored out bits.align out' rest → Block 0 out bits out' (.ofBytes rest)
  | fixed {out out' : Array UInt8} {bits bits' : Bits} :
      Coded fixedLiterals fixedDistances out bits out' bits' → Block 1 out bits out' bits'
  | described {out out' : Array UInt8} {bits rest bits' : Bits} {codes : Codes} :
      readCodes bits = .ok (codes, rest) →
        Coded codes.literals codes.distances out rest out' bits' → Block 2 out bits out' bits'

/-- Blocks up to and with the last one, and the octets behind it. -/
inductive Blocks : Array UInt8 → Bits → Array UInt8 → Bytes → Prop
  | last {out out' : Array UInt8} {bits rest bits' : Bits} {head : Nat} :
      readBits 3 bits = .ok (head, rest) → head % 2 = 1 → Block (head / 2) out rest out' bits' →
        Blocks out bits out' bits'.align
  | more {out middle out' : Array UInt8} {bits rest bits' : Bits} {bytes : Bytes} {head : Nat} :
      readBits 3 bits = .ok (head, rest) → head % 2 ≠ 1 → Block (head / 2) out rest middle bits' →
        Blocks middle bits' out' bytes → Blocks out bits out' bytes

/-- Deflated data holds an output, and other octets follow it. -/
def Inflates (bytes : Bytes) (out : Array UInt8) (rest : Bytes) : Prop :=
  Blocks #[] (.ofBytes bytes) out rest

/-! ### The output only grows -/

/-- Copying only adds octets. -/
theorem prefix_copy (distance n : Nat) (out : Array UInt8) :
    out.toList <+: (copy distance n out).toList := by
  induction n generalizing out with
  | zero => exact List.prefix_rfl
  | succ n ih =>
    refine List.IsPrefix.trans ?_ (ih _)
    rw [Array.toList_push]
    exact List.prefix_append _ _

namespace Inflater

variable {goal : Nat} {s s' : Inflater}

theorem prefix_ofError {e : InflateError} (h : ofError out e = some s) :
    out.toList <+: s.out.toList := by
  cases e with
  | corrupt => cases h
  | truncated => exact Option.some.inj h ▸ List.prefix_rfl

theorem prefix_stepCoded? (h : stepCoded? isLast codes out bits = some s) :
    out.toList <+: s.out.toList := by
  unfold stepCoded? at h
  split at h
  · exact prefix_ofError h
  split at h
  · obtain rfl := Option.some.inj h
    exact List.prefix_rfl
  · obtain rfl := Option.some.inj h
    simp
  split at h
  · exact prefix_ofError h
  · obtain rfl := Option.some.inj h
    exact prefix_copy _ _ _

theorem prefix_stepStored? (h : stepStored? isLast out bytes = some s) :
    out.toList <+: s.out.toList := by
  unfold stepStored? at h
  split at h
  · dsimp only at h
    split at h
    · cases h
    split at h
    all_goals
      obtain rfl := Option.some.inj h
      simp
  · obtain rfl := Option.some.inj h
    exact List.prefix_rfl

theorem prefix_stepBlock? (h : stepBlock? out bits = some s) : out.toList <+: s.out.toList := by
  unfold stepBlock? at h
  split at h
  · exact prefix_ofError h
  dsimp only at h
  split at h
  · exact prefix_stepStored? h
  · obtain rfl := Option.some.inj h
    exact List.prefix_rfl
  · split at h
    · exact prefix_ofError h
    · obtain rfl := Option.some.inj h
      exact List.prefix_rfl
  · cases h

/-- A step only adds octets. -/
theorem prefix_step? (h : s.step? = some s') : s.out.toList <+: s'.out.toList := by
  obtain ⟨out, place⟩ := s
  cases place with
  | block bits => exact prefix_stepBlock? h
  | coded isLast codes bits => exact prefix_stepCoded? h
  | finished | starved =>
    obtain rfl := Option.some.inj h
    exact List.prefix_rfl

/-! ### Coming to rest -/

/-- The inflater that goes on as long as it can: to the end of the data, or up to where the data is
malformed. -/
def last (s : Inflater) : Inflater :=
  if _hend : s.place.isEnd then s
  else
    match _hstep : s.step? with
    | none => s
    | some s' => last s'
termination_by s.place.size
decreasing_by exact size_step? _hstep (Bool.eq_false_iff.2 _hend)

theorem last_of_isEnd (h : s.place.isEnd) : s.last = s := by rw [last, dif_pos h]

/-- An inflater that can go no further has come to rest. -/
theorem last_of_step?_eq_none (h : s.step? = none) : s.last = s := by
  rw [last]
  split
  · rfl
  split
  · rfl
  · rename_i hstep
    cases h.symm.trans hstep

/-- A step changes nothing in where an inflater comes to rest. -/
theorem last_of_step? (h : s.step? = some s') : s.last = s'.last := by
  by_cases hend : s.place.isEnd
  · obtain ⟨out, place⟩ := s
    cases place with
    | block | coded => cases hend
    | finished | starved => rw [← Option.some.inj h]
  · rw [last, dif_neg hend]
    split
    · rename_i hstep
      cases h.symm.trans hstep
    · rename_i hstep
      cases h.symm.trans hstep
      rfl

/-- What is written out stays. -/
theorem prefix_last (s : Inflater) : s.out.toList <+: s.last.out.toList := by
  fun_induction last s with
  | case1 | case2 => exact List.prefix_rfl
  | case3 s _ s' hstep ih => exact (prefix_step? hstep).trans ih

theorem size_le_last (s : Inflater) : s.out.size ≤ s.last.out.size := s.prefix_last.length_le

/-- **Stopping on the way** changes nothing in where an inflater comes to rest. -/
theorem last_of_fill? (h : s.fill? goal = some s') : s'.last = s.last := by
  fun_induction fill? goal s with
  | case1 => rw [Option.some.inj h]
  | case2 => cases h
  | case3 s _ s₁ hstep ih => rw [ih h, last_of_step? hstep]

/-- Writing out goes on until there are more octets than are asked for, or there is nothing to go on
with. -/
theorem stops_of_fill? (h : s.fill? goal = some s') : goal < s'.out.size ∨ s'.place.isEnd := by
  fun_induction fill? goal s with
  | case1 s hstop => exact Option.some.inj h ▸ hstop
  | case2 => cases h
  | case3 s _ s₁ hstep ih => exact ih h

/-- **Malformed data** is refused if it is come to before the inflater is stopped. -/
theorem fill?_eq_none_iff :
    s.fill? goal = none ↔ s.last.place.isEnd = false ∧ s.last.out.size ≤ goal := by
  fun_induction fill? goal s with
  | case1 s hstop =>
    refine iff_of_false (Option.some_ne_none s) ?_
    rintro ⟨hend, hle⟩
    rcases hstop with hlt | hstop
    · exact absurd (Nat.lt_of_lt_of_le hlt s.size_le_last) (Nat.not_lt.2 hle)
    · rw [last_of_isEnd hstop, hstop] at hend
      cases hend
  | case2 s hstop hstep =>
    rw [last_of_step?_eq_none hstep]
    rw [not_or] at hstop
    exact iff_of_true rfl ⟨Bool.eq_false_iff.2 hstop.2, Nat.le_of_not_lt hstop.1⟩
  | case3 s _ s' hstep ih => rw [ih, last_of_step? hstep]

/-! ### Outputs and rests -/

/-- What follows a block completes an output, and other octets follow that. -/
def Closes (isLast : Bool) (out : Array UInt8) (bits : Bits) (out' : Array UInt8) (rest : Bytes) :
    Prop :=
  if isLast then out = out' ∧ bits.align = rest else Blocks out bits out' rest

/-- What follows the place of an inflater completes an output, and other octets follow that. -/
def Yields (s : Inflater) (out : Array UInt8) (rest : Bytes) : Prop :=
  match s.place with
  | .block bits => Blocks s.out bits out rest
  | .coded isLast codes bits => ∃ middle bits',
      Coded codes.literals codes.distances s.out bits middle bits' ∧
        Closes isLast middle bits' out rest
  | .finished rest' => s.out = out ∧ rest' = rest
  | .starved => False

/-- Behind a block an inflater yields what closing the block does. -/
theorem yields_behind_iff :
    (⟨out, .behind isLast bits⟩ : Inflater).Yields out' rest ↔
      Closes isLast out bits out' rest := by
  cases isLast <;> exact Iff.rfl

/-- An inflater that cannot read on yields nothing. -/
theorem not_yields_of_ofError {e : InflateError} (h : ofError out e = some s) :
    ¬ s.Yields out' rest := by
  cases e with
  | corrupt => cases h
  | truncated => exact Option.some.inj h ▸ id

/-- A symbol of a coded block goes one step towards what the block holds. -/
theorem exists_stepCoded?_iff :
    (∃ s, stepCoded? isLast codes out bits = some s ∧ s.Yields out' rest) ↔
      (⟨out, .coded isLast codes bits⟩ : Inflater).Yields out' rest := by
  constructor
  · rintro ⟨s, hstep, hyields⟩
    unfold stepCoded? at hstep
    split at hstep
    · exact absurd hyields (not_yields_of_ofError hstep)
    rename_i symbol bits₁ hdecode
    split at hstep
    · rename_i hstop
      obtain rfl := Option.some.inj hstep
      exact ⟨out, bits₁, .stop hdecode hstop, yields_behind_iff.1 hyields⟩
    · rename_i octet hliteral
      obtain rfl := Option.some.inj hstep
      obtain ⟨middle, bits₂, hcoded, hcloses⟩ := hyields
      exact ⟨middle, bits₂, .literal hdecode hliteral hcoded, hcloses⟩
    · rename_i place hplace
      split at hstep
      · exact absurd hyields (not_yields_of_ofError hstep)
      · rename_i reference bits₂ hread
        obtain rfl := Option.some.inj hstep
        obtain ⟨middle, bits₃, hcoded, hcloses⟩ := hyields
        exact ⟨middle, bits₃, .reference hdecode hplace hread hcoded, hcloses⟩
  · rintro ⟨middle, bits₁, hcoded, hcloses⟩
    cases hcoded with
    | stop hdecode hstop =>
      exact ⟨_, by simp only [stepCoded?, hdecode, hstop], yields_behind_iff.2 hcloses⟩
    | literal hdecode hliteral hcoded =>
      exact ⟨⟨out.push _, .coded isLast codes _⟩, by simp only [stepCoded?, hdecode, hliteral],
        middle, bits₁, hcoded, hcloses⟩
    | reference hdecode hplace hread hcoded =>
      exact ⟨⟨copy _ _ out, .coded isLast codes _⟩,
        by simp only [stepCoded?, hdecode, hplace, hread], middle, bits₁, hcoded, hcloses⟩

/-- A stored block is taken in one step. -/
theorem exists_stepStored?_iff :
    (∃ s, stepStored? isLast out bytes = some s ∧ s.Yields out' rest) ↔
      ∃ middle octets, Stored out bytes middle octets ∧
        Closes isLast middle (.ofBytes octets) out' rest := by
  constructor
  · rintro ⟨s, hstep, hyields⟩
    unfold stepStored? at hstep
    split at hstep
    case h_2 =>
      obtain rfl := Option.some.inj hstep
      exact hyields.elim
    case h_1 a b c d octets =>
      dsimp only at hstep
      split at hstep
      · cases hstep
      rename_i hcheck
      split at hstep
      · obtain rfl := Option.some.inj hstep
        exact hyields.elim
      rename_i hlength
      obtain rfl := Option.some.inj hstep
      -- there are as many octets as the length says
      have hstored : (octets.take (a.toNat + 256 * b.toNat)).length = a.toNat + 256 * b.toNat :=
        Nat.le_antisymm (List.length_take_le _ _) (Nat.le_of_not_lt hlength)
      have hcheck := Decidable.of_not_not hcheck
      rw [← hstored] at hcheck
      have hwhole := @Stored.mk out a b c d _ (octets.drop (a.toNat + 256 * b.toNat)) hstored hcheck
      rw [List.take_append_drop] at hwhole
      exact ⟨_, _, hwhole, yields_behind_iff.1 hyields⟩
  · rintro ⟨middle, octets, hstored, hcloses⟩
    cases hstored with
    | @mk a b c d stored _ hlength hcheck =>
      rw [hlength] at hcheck
      have htake : (stored ++ octets).take (a.toNat + 256 * b.toNat) = stored :=
        hlength ▸ List.take_left
      have hdrop : (stored ++ octets).drop (a.toNat + 256 * b.toNat) = octets :=
        hlength ▸ List.drop_left
      refine ⟨⟨out ++ stored, .behind isLast (.ofBytes octets)⟩, ?_, yields_behind_iff.2 hcloses⟩
      rw [stepStored?]
      dsimp only
      rw [if_neg (not_not_intro hcheck), htake, hdrop,
        if_neg (Nat.not_lt.2 (Nat.le_of_eq hlength.symm))]

/-- The front of a block goes one step towards what the block holds. -/
theorem exists_stepBlock?_iff :
    (∃ s, stepBlock? out bits = some s ∧ s.Yields out' rest) ↔ Blocks out bits out' rest := by
  constructor
  · rintro ⟨s, hstep, hyields⟩
    unfold stepBlock? at hstep
    split at hstep
    · exact absurd hyields (not_yields_of_ofError hstep)
    rename_i head bits₁ hread
    -- whether more blocks follow is said in front of the block
    have hblocks : ∀ {middle bits₂}, Block (head / 2) out bits₁ middle bits₂ →
        Closes (head % 2 = 1) middle bits₂ out' rest → Blocks out bits out' rest := by
      intro middle bits₂ hblock hcloses
      by_cases hlast : head % 2 = 1
      · rw [Closes, decide_eq_true hlast] at hcloses
        obtain ⟨rfl, rfl⟩ := hcloses
        exact .last hread hlast hblock
      · rw [Closes, decide_eq_false hlast] at hcloses
        exact .more hread hlast hblock hcloses
    dsimp only at hstep
    split at hstep
    · rename_i hkind
      obtain ⟨middle, octets, hstored, hcloses⟩ := exists_stepStored?_iff.1 ⟨s, hstep, hyields⟩
      exact hblocks (by rw [hkind]; exact .stored hstored) hcloses
    · rename_i hkind
      obtain rfl := Option.some.inj hstep
      obtain ⟨middle, bits₂, hcoded, hcloses⟩ := hyields
      exact hblocks (by rw [hkind]; exact .fixed hcoded) hcloses
    · rename_i hkind
      split at hstep
      · exact absurd hyields (not_yields_of_ofError hstep)
      · rename_i hcodes
        obtain rfl := Option.some.inj hstep
        obtain ⟨middle, bits₂, hcoded, hcloses⟩ := hyields
        exact hblocks (by rw [hkind]; exact .described hcodes hcoded) hcloses
    · cases hstep
  · intro h
    obtain ⟨head, bits₁, middle, bits₂, hread, hblock, hcloses⟩ : ∃ head bits₁ middle bits₂,
        readBits 3 bits = .ok (head, bits₁) ∧ Block (head / 2) out bits₁ middle bits₂ ∧
          Closes (head % 2 = 1) middle bits₂ out' rest := by
      cases h with
      | last hread hlast hblock =>
        refine ⟨_, _, _, _, hread, hblock, ?_⟩
        rw [Closes, decide_eq_true hlast]
        exact ⟨rfl, rfl⟩
      | more hread hlast hblock hblocks =>
        refine ⟨_, _, _, _, hread, hblock, ?_⟩
        rw [Closes, decide_eq_false hlast]
        exact hblocks
    generalize hkind : head / 2 = kind at hblock
    cases hblock with
    | stored hstored =>
      obtain ⟨s, hstep, hyields⟩ := exists_stepStored?_iff.2 ⟨_, _, hstored, hcloses⟩
      exact ⟨s, by simp only [stepBlock?, hread, hkind, hstep], hyields⟩
    | fixed hcoded =>
      exact ⟨⟨_, .coded _ .fixed _⟩, by simp only [stepBlock?, hread, hkind], _, _, hcoded, hcloses⟩
    | described hcodes hcoded =>
      exact ⟨⟨_, .coded _ _ _⟩, by simp only [stepBlock?, hread, hkind, hcodes], _, _, hcoded,
        hcloses⟩

/-- A step goes towards the output that the data completes, and no other. -/
theorem exists_step?_iff :
    (∃ s', s.step? = some s' ∧ s'.Yields out rest) ↔ s.Yields out rest := by
  obtain ⟨written, place⟩ := s
  cases place with
  | block bits => exact exists_stepBlock?_iff
  | coded isLast codes bits => exact exists_stepCoded?_iff
  | finished | starved =>
    exact ⟨fun ⟨_, h, hyields⟩ => Option.some.inj h ▸ hyields, fun h => ⟨_, rfl, h⟩⟩

/-- An inflater comes to rest with the output that the data completes. -/
theorem yields_iff_last : s.Yields out rest ↔ s.last = ⟨out, .finished rest⟩ := by
  fun_induction last s with
  | case1 s hend =>
    obtain ⟨written, place⟩ := s
    cases place with
    | block | coded => cases hend
    | finished rest' => simp [Yields]
    | starved => simp [Yields]
  | case2 s hend hstep =>
    -- at malformed data there is no step, and no end either
    refine iff_of_false ?_ ?_
    · rw [← exists_step?_iff, hstep]
      rintro ⟨s', h, -⟩
      cases h
    · rintro rfl
      exact hend rfl
  | case3 s _ s' hstep ih =>
    rw [← ih, ← exists_step?_iff, hstep]
    simp

end Inflater

/-- **What data holds** is what its inflater comes to rest with. -/
theorem inflates_iff_last :
    Inflates bytes out rest ↔ (Inflater.ofBytes bytes).last = ⟨out, .finished rest⟩ :=
  Inflater.yields_iff_last (s := .ofBytes bytes)

/-- There is one output at most. -/
theorem Inflates.unique {rest' : Bytes} (h : Inflates bytes out rest)
    (h' : Inflates bytes out' rest') : out = out' ∧ rest = rest' := by
  have heq := (inflates_iff_last.1 h).symm.trans (inflates_iff_last.1 h')
  simpa using heq

end HttpEcho.Deflate
