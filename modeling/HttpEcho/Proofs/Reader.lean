import HttpEcho.Reader

/-!
# What a reader gives

What a reader gives is described by the octets that a source holds, and by the fault that shows when
so many of them are asked for, if one does (`Reader.Describes`). Each read gives some of the octets,
or reports the fault that shows with the next one, or finds the end (`Reader.Reads`). It follows
that reading a limited source to its end gives as many octets as the limit allows, or the fault that
shows within the limit, and that the size of the buffer does not matter
(`Reader.Describes.readToEnd_eq`).
-/

namespace HttpEcho.Reader

variable {Source Fault : Type} {reader : Reader Source Fault} {output : Source → Bytes}
  {fault? : Source → Nat → Option Fault} {room : Nat} {s s' : Limited Source}

/-- What comes of asking a source for up to `n` octets, if it holds the octets `output` gives and
the faults of `fault?` show when that many octets are asked for. -/
inductive Reads (output : Source → Bytes) (fault? : Source → Nat → Option Fault) (source : Source)
    (n : Nat) : Except Fault (Bytes × Source) → Prop
  /-- The fault is reported that shows with the next octet. -/
  | fault {fault : Fault} : fault? source 1 = some fault →
    Reads output fault? source n (.error fault)
  /-- Octets are given, and the source behind them holds the others. -/
  | octets {octets : Bytes} {source' : Source} : octets ≠ [] → octets.length ≤ n →
      output source = octets ++ output source' →
        (∀ m, fault? source (octets.length + m) = fault? source' m) →
          Reads output fault? source n (.ok (octets, source'))
  /-- No octets are left, and no fault shows. -/
  | ended {source' : Source} : output source = [] → (∀ m, fault? source m = none) →
      Reads output fault? source n (.ok ([], source'))

/-- Sources that hold the same are read alike. -/
theorem Reads.congr {source source' : Source} {n : Nat} {result : Except Fault (Bytes × Source)}
    (h : Reads output fault? source n result) (houtput : output source = output source')
    (hfault : fault? source = fault? source') : Reads output fault? source' n result := by
  cases h with
  | fault h => exact .fault (hfault ▸ h)
  | octets hne hlength h hlater => exact .octets hne hlength (houtput ▸ h) (hfault ▸ hlater)
  | ended h hnone => exact .ended (houtput ▸ h) (hfault ▸ hnone)

/-- A reader gives the octets that sources hold, and reports the faults that show when that many
octets are asked for. -/
structure Describes (reader : Reader Source Fault) (output : Source → Bytes)
    (fault? : Source → Nat → Option Fault) : Prop where
  /-- No fault shows as long as nothing is asked for. -/
  fault?_zero : ∀ source, fault? source 0 = none
  /-- A fault that shows stays when more is asked for. -/
  fault?_mono : ∀ {source m n fault}, fault? source m = some fault → m ≤ n →
    fault? source n = some fault
  /-- Every read is one of the three. -/
  reads : ∀ source {n}, 0 < n → Reads output fault? source n (reader n source)

theorem readToEnd_of_error {fault : Fault} (h : reader.take room s = .error fault) :
    reader.readToEnd room s = .error fault := by
  rw [readToEnd]
  split
  case h_1 herror => rw [Except.error.inj (h.symm.trans herror)]
  all_goals
    rename_i hok
    cases h.symm.trans hok

theorem readToEnd_of_nil (h : reader.take room s = .ok ([], s')) :
    reader.readToEnd room s = .ok [] := by
  rw [readToEnd]
  split
  case h_2 => rfl
  all_goals
    rename_i hother
    cases h.symm.trans hother

theorem readToEnd_of_cons {b : UInt8} {octets : Bytes}
    (h : reader.take room s = .ok (b :: octets, s')) :
    reader.readToEnd room s = (reader.readToEnd room s').map (b :: octets ++ ·) := by
  rw [readToEnd]
  split
  case h_3 hcons =>
    cases h.symm.trans hcons
    rfl
  all_goals
    rename_i hother
    cases h.symm.trans hother

theorem take_zero (reader : Reader Source Fault) (n : Nat) (source : Source) :
    reader.take n ⟨source, 0⟩ = .ok ([], ⟨source, 0⟩) :=
  if_pos rfl

/-- As long as the limit is not reached, the source is asked for no more than it allows. -/
theorem take_of_pos (reader : Reader Source Fault) (n : Nat) (source : Source) {left : Nat}
    (hleft : 0 < left) :
    reader.take n ⟨source, left⟩ = (reader (min n left) source).map
      fun result => (result.1, ⟨result.2, left - result.1.length⟩) := by
  rw [take, if_neg (Nat.ne_of_gt hleft)]
  cases reader (min n left) source <;> rfl

/-- **Reading to the end** of a limited source gives the octets that the limit allows, or the fault
that shows when that many are asked for. -/
theorem Describes.readToEnd_eq (h : reader.Describes output fault?) (hroom : 0 < room)
    (source : Source) (left : Nat) :
    reader.readToEnd room ⟨source, left⟩ =
      (fault? source left).elim (.ok ((output source).take left)) .error := by
  induction left using Nat.strongRecOn generalizing source with
  | ind left ih =>
    obtain rfl | hleft := Nat.eq_zero_or_pos left
    · rw [readToEnd_of_nil (take_zero reader room source), h.fault?_zero, List.take_zero,
        Option.elim_none]
    have htake := take_of_pos reader room source hleft
    have hreads := h.reads source (Nat.lt_min.2 ⟨hroom, hleft⟩)
    generalize reader (min room left) source = result at htake hreads
    cases hreads with
    | fault hfault =>
      rw [readToEnd_of_error htake, h.fault?_mono hfault hleft,
        Option.elim_some]
    | ended houtput hnone =>
      rw [readToEnd_of_nil htake, hnone, houtput, List.take_nil, Option.elim_none]
    | @octets octets source' hne hlength houtput hlater =>
      obtain ⟨b, octets, rfl⟩ := List.exists_cons_of_ne_nil hne
      have hle := Nat.le_trans hlength (Nat.min_le_right _ _)
      -- what is given is not empty, so that less is left to be read
      have hlt : left - (b :: octets).length < left :=
        Nat.sub_lt hleft (Nat.succ_pos _)
      have hfault := hlater (left - (b :: octets).length)
      rw [Nat.add_sub_cancel' hle] at hfault
      rw [readToEnd_of_cons htake, ih _ hlt, hfault, houtput, List.take_append,
        List.take_of_length_le hle]
      cases fault? source' (left - (b :: octets).length) <;> rfl

end HttpEcho.Reader
