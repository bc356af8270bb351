import HttpEcho.Gzip.Decoder
import HttpEcho.Proofs.Gzip.Inflation
import HttpEcho.Proofs.Reader
import Mathlib.Data.List.Infix

/-!
# What a decoder gives

A decoder holds what the inflater of its data comes to rest with (`Gzip.Decoder.output`), and the
fault that shows depends on where that is (`Gzip.Decoder.faultAt?`). Malformed data shows with the
window in which it is found. Data that ends too early, and a trailer that is not the right one, show
only when an octet is asked for that is behind all the data holds. The decoder reads accordingly
(`Gzip.Decoder.describes_read`), however much it is asked for at a time.
-/

namespace HttpEcho.Gzip.Decoder

open Deflate (Inflater)

variable {n given place : Nat} {s s' final : Inflater} {e : GzipError}

/-! ### Windows -/

theorem lt_windowEnd (place : Nat) : place < windowEnd place := by
  rw [windowEnd, Nat.add_one_mul]
  exact Nat.lt_div_mul_add (by decide)

/-- A later place is in the same window or in a later one. -/
theorem windowEnd_mono {place' : Nat} (h : place ≤ place') : windowEnd place ≤ windowEnd place' :=
  Nat.mul_le_mul_right _ (Nat.succ_le_succ (Nat.div_le_div_right h))

/-- Places in one window have one end. -/
theorem windowEnd_eq {place' : Nat} (h : place ≤ place') (hlt : place' < windowEnd place) :
    windowEnd place' = windowEnd place := by
  have hle : place / window ≤ place' / window := Nat.div_le_div_right h
  have hlt' : place' / window < place / window + 1 := Nat.div_lt_of_lt_mul (Nat.mul_comm _ _ ▸ hlt)
  rw [windowEnd, windowEnd, Nat.le_antisymm (Nat.le_of_lt_succ hlt') hle]

/-! ### What there is to be read -/

/-- The fault that shows when the octet at a place of the output is asked for, where `final` is what
the inflater comes to rest with. -/
def faultAt? (final : Inflater) (place : Nat) : Option GzipError :=
  match final.place with
  | .block _ | .coded .. => if final.out.size ≤ windowEnd place then some .corruptData else none
  | .starved => if final.out.size ≤ place then some .incompleteData else none
  | .finished rest =>
    if final.out.size ≤ place then
      match checkTrailer final.out.toList rest with
      | .error e => some e
      | .ok () => none
    else none

/-- The octets that have not been given yet. -/
def output : Decoder → Bytes
  | header bytes =>
    match dropHeader bytes with
    | .error _ => []
    | .ok octets => (Inflater.ofBytes octets).last.out.toList
  | data inflater given => inflater.last.out.toList.drop given
  | ended => []

/-- The fault that shows when so many octets are asked for. -/
def fault? : Decoder → Nat → Option GzipError
  | _, 0 => none
  | header bytes, n + 1 =>
    match dropHeader bytes with
    | .error e => some e
    | .ok octets => faultAt? (Inflater.ofBytes octets).last n
  | data inflater given, n + 1 => faultAt? inflater.last (given + n)
  | ended, _ + 1 => none

/-- A fault that shows at a place shows at every later one. -/
theorem faultAt?_mono {place' : Nat} (h : faultAt? final place = some e) (hle : place ≤ place') :
    faultAt? final place' = some e := by
  unfold faultAt? at h ⊢
  cases hplace : final.place with
  | block | coded =>
    simp only [hplace, Option.ite_none_right_eq_some] at h ⊢
    exact ⟨Nat.le_trans h.1 (windowEnd_mono hle), h.2⟩
  | finished | starved =>
    simp only [hplace, Option.ite_none_right_eq_some] at h ⊢
    exact ⟨Nat.le_trans h.1 hle, h.2⟩

theorem fault?_zero (d : Decoder) : d.fault? 0 = none := by cases d <;> rfl

/-- A fault that shows stays when more is asked for. -/
theorem fault?_mono {d : Decoder} {m : Nat} (h : d.fault? m = some e) (hle : m ≤ n) :
    d.fault? n = some e := by
  cases m with
  | zero =>
    rw [fault?_zero] at h
    cases h
  | succ m =>
    obtain ⟨k, rfl⟩ : ∃ k, n = m + k + 1 := ⟨n - (m + 1), by omega⟩
    have hle : m ≤ m + k := Nat.le_add_right m k
    cases d with
    | header bytes =>
      rw [fault?] at h ⊢
      split at h
      · exact h
      · exact faultAt?_mono h hle
    | data inflater given => exact faultAt?_mono h (Nat.add_le_add_left hle given)
    | ended => cases h

/-! ### Reading the data -/

/-- What is given of a window is the next octets of what the inflater comes to rest with. -/
theorem exists_extract (hfill : s.fill? (windowEnd given) = some s') (hn : 0 < n) :
    ∃ octets, (s'.out.extract given (min (given + n) (windowEnd given))).toList = octets ∧
      octets.length ≤ n ∧ given + octets.length ≤ windowEnd given ∧
      (given < s'.out.size → octets ≠ []) ∧
      s.last.out.toList.drop given = octets ++ s.last.out.toList.drop (given + octets.length) := by
  refine ⟨_, rfl, ?_⟩
  have hlt := lt_windowEnd given
  have hpart : (s'.out.extract given (min (given + n) (windowEnd given))).toList =
      (s'.out.toList.drop given).take (min (given + n) (windowEnd given) - given) := by
    simp
  -- what is written out by now stays as it is
  have hprefix : (s'.out.extract given (min (given + n) (windowEnd given))).toList <+:
      s.last.out.toList.drop given := by
    rw [hpart, ← s.last_of_fill? hfill]
    exact (List.take_prefix _ _).trans (List.IsPrefix.drop s'.prefix_last given)
  have hlength : (s'.out.extract given (min (given + n) (windowEnd given))).toList.length =
      min (min (given + n) (windowEnd given) - given) (s'.out.size - given) := by
    rw [hpart, List.length_take, List.length_drop, Array.length_toList]
  refine ⟨?_, ?_, ?_, ?_⟩
  · omega
  · omega
  · intro hsize hnil
    rw [hnil, List.length_nil] at hlength
    omega
  · rw [← List.drop_drop]
    exact (List.prefix_iff_eq_append.1 hprefix).symm

/-- No fault shows at an octet that there is, unless malformed data was found in its window. -/
theorem faultAt?_eq_none (hlt : place < final.out.size)
    (hfound : ¬ (final.place.isEnd = false ∧ final.out.size ≤ windowEnd place)) :
    faultAt? final place = none := by
  unfold faultAt?
  cases hplace : final.place with
  | block | coded =>
    rw [hplace] at hfound
    exact if_neg fun hle => hfound ⟨rfl, hle⟩
  | finished | starved => exact if_neg (Nat.not_le.2 hlt)

/-- Octets of a window are given if there are some. -/
theorem reads_readData_of_lt (hfill : s.fill? (windowEnd given) = some s')
    (hlt : given < s'.out.size) (hn : 0 < n) :
    Reader.Reads output fault? (data s given) n (readData n s given) := by
  obtain ⟨octets, hextract, hlength, hwindow, hne, hdrop⟩ := exists_extract hfill hn
  have hne := hne hlt
  have hread : readData n s given = .ok (octets, data s' (given + octets.length)) := by
    obtain ⟨b, octets, rfl⟩ := List.exists_cons_of_ne_nil hne
    simp only [readData, hfill, hextract]
  rw [hread]
  refine .octets hne hlength (by rw [output, output, s.last_of_fill? hfill, hdrop]) fun m => ?_
  cases m with
  | zero =>
    -- all octets up to the last one asked for are in the window, and there
    obtain ⟨k, hk⟩ := Nat.exists_eq_succ_of_ne_zero (mt List.length_eq_zero_iff.1 hne)
    have hplace : given + k < s.last.out.size := by
      have hsize := congrArg List.length hdrop
      rw [List.length_append, List.length_drop, Array.length_toList] at hsize
      omega
    have hfound : ¬ (s.last.place.isEnd = false ∧ s.last.out.size ≤ windowEnd (given + k)) := by
      rw [windowEnd_eq (Nat.le_add_right given k) (by omega), ← Inflater.fill?_eq_none_iff, hfill]
      exact Option.some_ne_none s'
    rw [Nat.add_zero, hk, fault?_zero]
    exact faultAt?_eq_none hplace hfound
  | succ m => rw [← Nat.add_assoc, fault?, fault?, s.last_of_fill? hfill, Nat.add_assoc]

/-- What is behind the octets of the output shows if an octet is asked for there. -/
theorem reads_readData_of_le (hfill : s.fill? (windowEnd given) = some s')
    (hle : s'.out.size ≤ given) :
    Reader.Reads output fault? (data s given) n (readData n s given) := by
  -- the window is not full, and so the inflater had nothing to go on with
  have hend : s'.place.isEnd := (Inflater.stops_of_fill? hfill).resolve_left
    (Nat.not_lt.2 (Nat.le_trans hle (Nat.le_of_lt (lt_windowEnd given))))
  have hlast : s' = s.last := by rw [← s.last_of_fill? hfill, Inflater.last_of_isEnd hend]
  have hnone : (s'.out.extract given (min (given + n) (windowEnd given))).toList = [] := by
    rw [Array.extract_empty_of_size_le_start hle]
  have houtput : (data s given).output = [] := by
    rw [output, ← hlast]
    exact List.drop_of_length_le hle
  have hfault : ∀ m, (data s given).fault? (m + 1) = faultAt? s' (given + m) := by
    intro m
    rw [fault?, ← hlast]
  cases hplace : s'.place with
  | block | coded =>
    rw [hplace] at hend
    cases hend
  | starved =>
    have hread : readData n s given = .error .incompleteData := by
      simp only [readData, hfill, hnone, hplace]
    rw [hread]
    refine .fault ?_
    rw [hfault, faultAt?, hplace]
    exact if_pos hle
  | finished rest =>
    have hread : readData n s given =
        (checkTrailer s'.out.toList rest).map fun _ => ([], ended) := by
      simp only [readData, hfill, hnone, hplace]
    have hshows : ∀ m, (data s given).fault? (m + 1) =
        match checkTrailer s'.out.toList rest with
        | .error e => some e
        | .ok () => none := by
      intro m
      rw [hfault, faultAt?, hplace]
      exact if_pos (Nat.le_add_right_of_le hle)
    rw [hread]
    cases hcheck : checkTrailer s'.out.toList rest with
    | error e =>
      refine .fault ?_
      rw [hshows, hcheck]
    | ok =>
      refine .ended houtput fun m => ?_
      cases m with
      | zero => rfl
      | succ m => rw [hshows, hcheck]

/-- The data of a member is read octet by octet up to the fault that shows. -/
theorem reads_readData (s : Inflater) (given : Nat) (hn : 0 < n) :
    Reader.Reads output fault? (data s given) n (readData n s given) := by
  cases hfill : s.fill? (windowEnd given) with
  | none =>
    have hread : readData n s given = .error .corruptData := by simp only [readData, hfill]
    obtain ⟨hend, hle⟩ := Inflater.fill?_eq_none_iff.1 hfill
    rw [hread]
    refine .fault ?_
    change faultAt? s.last given = _
    unfold faultAt?
    cases hplace : s.last.place with
    | block | coded => exact if_pos hle
    | finished | starved =>
      rw [hplace] at hend
      cases hend
  | some s' =>
    by_cases hlt : given < s'.out.size
    · exact reads_readData_of_lt hfill hlt hn
    · exact reads_readData_of_le hfill (Nat.le_of_not_lt hlt)

/-- **A decoder** gives what its inflater comes to rest with, and reports the fault that there is
when it is asked for octets that it does not come to. -/
theorem describes_read : Decoder.read.Describes output fault? where
  fault?_zero := fault?_zero
  fault?_mono := fault?_mono
  reads := by
    intro d n hn
    cases d with
    | header bytes =>
      cases hheader : dropHeader bytes with
      | error e =>
        have hread : read n (header bytes) = .error e := by simp only [read, hheader]
        rw [hread]
        exact .fault (by simp only [fault?, hheader])
      | ok octets =>
        have hread : read n (header bytes) = readData n (.ofBytes octets) 0 := by
          simp only [read, hheader]
        rw [hread]
        -- the header is passed over by the first read, and counts for nothing after that
        refine (reads_readData (.ofBytes octets) 0 hn).congr ?_ ?_
        · simp only [output, hheader, List.drop_zero]
        · funext m
          cases m with
          | zero => rfl
          | succ m => simp only [fault?, hheader, Nat.zero_add]
    | data s given => exact reads_readData s given hn
    | ended => exact .ended rfl fun m => by cases m <;> rfl

end HttpEcho.Gzip.Decoder
