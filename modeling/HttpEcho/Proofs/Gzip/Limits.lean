import HttpEcho.Proofs.Gzip.Bits
import HttpEcho.Proofs.Gzip.Decoder

/-!
# The limit on decoded members

Octets begin with a gzip member for some output if they begin with a header, with deflated data that
holds the output, and with the trailer of it (`Gzip.Member`). No limit is spoken of in that; members
are what a decoder reads without a fault, however much it is asked for (`Gzip.member_iff`).

Decoding with a limit reads one octet more than the limit from the decoder. If the output has that
octet, it is too large, and the decoder was not asked for anything behind it; if not, the decoder
was asked for an octet behind the output, and so it has checked the trailer
(`Gzip.decode_of_inflates`). Hence the limit is exact and does not weaken the checks
(`Gzip.decode_within_limit`). The greatest number that a word holds is no limit: the number of
octets to read is 0 then, and nothing is read at all (`Gzip.decode_of_wraps`).
-/

namespace HttpEcho.Gzip

variable {limit : Nat} {bytes data out rest : Bytes}

/-! ### Members -/

/-- The trailer: the check value of the output, and its length as far as it fits. -/
def trailer (out : Bytes) : Bytes :=
  octets 4 (Crc32.ofBytes out).toNat ++ octets 4 out.length

/-- Octets begin with a gzip member: a header, data that holds the output, and the trailer of it. -/
def Member (bytes out : Bytes) : Prop :=
  ∃ data rest, dropHeader bytes = .ok data ∧ Deflate.Inflates data out.toArray rest ∧
    trailer out <+: rest

/-! ### Checking trailers -/

/-- **The trailer** is checked octet for octet. -/
theorem checkTrailer_eq (out bytes : Bytes) :
    checkTrailer out bytes =
      if bytes.length < 8 then .error .unexpectedEof
      else if trailer out <+: bytes then .ok () else .error .checksumMismatch := by
  rw [checkTrailer, take]
  by_cases hshort : bytes.length < 8
  · rw [if_pos hshort, if_pos hshort]
  rw [if_neg hshort, if_neg hshort]
  have hfirst : ((bytes.take 8).take 4).length = 4 := by
    rw [List.length_take, List.length_take]
    omega
  have hsecond : ((bytes.take 8).drop 4).length = 4 := by
    rw [List.length_drop, List.length_take]
    omega
  have hcheck := littleEndian_eq_mod_iff hfirst (Crc32.ofBytes out).toNat
  have hlt : (Crc32.ofBytes out).toNat < 256 ^ 4 := (Crc32.ofBytes out).toNat_lt
  rw [Nat.mod_eq_of_lt hlt] at hcheck
  have hlength : littleEndian ((bytes.take 8).drop 4) = out.length % 4294967296 ↔ _ :=
    littleEndian_eq_mod_iff hsecond out.length
  -- the trailer is as long as what was read for it
  have htrailer : trailer out <+: bytes ↔
      (bytes.take 8).take 4 = octets 4 (Crc32.ofBytes out).toNat ∧
        (bytes.take 8).drop 4 = octets 4 out.length := by
    rw [List.prefix_iff_eq_take]
    have height : (trailer out).length = 8 := by
      rw [trailer, List.length_append, length_octets, length_octets]
    rw [height]
    constructor
    · intro h
      rw [← h, trailer, List.take_left' (length_octets _ _), List.drop_left' (length_octets _ _)]
      exact ⟨rfl, rfl⟩
    · rintro ⟨h, h'⟩
      rw [trailer, ← h, ← h', List.take_append_drop]
  simp only [hcheck, hlength, htrailer]

/-- A trailer is accepted exactly if it is that of the octets that were written out. -/
theorem checkTrailer_eq_ok_iff : checkTrailer out bytes = .ok () ↔ trailer out <+: bytes := by
  rw [checkTrailer_eq]
  constructor
  · intro h
    split at h
    · cases h
    split at h
    · assumption
    · cases h
  · intro h
    have hle := h.length_le
    rw [trailer, List.length_append, length_octets, length_octets] at hle
    rw [if_neg (Nat.not_lt.2 hle), if_pos h]

/-! ### Reading members -/

/-- If no fault shows when an octet behind the output is asked for, there is a whole member. -/
theorem member_of_fault?_eq_none {n : Nat}
    (hfault : (Decoder.header bytes).fault? (n + 1) = none)
    (hle : (Decoder.header bytes).output.length ≤ n) :
    Member bytes (Decoder.header bytes).output := by
  cases hheader : dropHeader bytes with
  | error e =>
    simp only [Decoder.fault?, hheader] at hfault
    cases hfault
  | ok data =>
    simp only [Decoder.fault?, Decoder.output, hheader] at hfault hle ⊢
    generalize hlast : (Deflate.Inflater.ofBytes data).last = final at hfault hle ⊢
    obtain ⟨written, place⟩ := final
    rw [Array.length_toList] at hle
    cases place with
    | block | coded =>
      -- the window of the octet asked for is at fault
      have hwindow := Nat.le_trans hle (Nat.le_of_lt (Decoder.lt_windowEnd n))
      rw [Decoder.faultAt?, if_pos hwindow] at hfault
      cases hfault
    | starved =>
      rw [Decoder.faultAt?, if_pos hle] at hfault
      cases hfault
    | finished rest =>
      refine ⟨data, rest, hheader, Deflate.inflates_iff_last.2 hlast, checkTrailer_eq_ok_iff.1 ?_⟩
      simp only [Decoder.faultAt?, if_pos hle] at hfault
      dsimp only
      cases hcheck : checkTrailer written.toList rest with
      | error e =>
        rw [hcheck] at hfault
        cases hfault
      | ok => rfl

/-- **Members** are what a decoder reads without a fault, however much it is asked for. -/
theorem member_iff :
    Member bytes out ↔ (Decoder.header bytes).output = out ∧
      ∀ n, (Decoder.header bytes).fault? n = none := by
  constructor
  · rintro ⟨data, rest, hheader, hdata, htrailer⟩
    have hlast := Deflate.inflates_iff_last.1 hdata
    refine ⟨by simp only [Decoder.output, hheader, hlast], fun n => ?_⟩
    cases n with
    | zero => rfl
    | succ n =>
      simp only [Decoder.fault?, hheader, hlast, Decoder.faultAt?,
        checkTrailer_eq_ok_iff.2 htrailer, ite_self]
  · rintro ⟨rfl, hfault⟩
    exact member_of_fault?_eq_none (hfault _) (Nat.le_refl _)

/-! ### Decoding -/

/-- The greatest number that a word holds has no successor, and nothing is read. -/
theorem decode_of_wraps (h : UInt64.ofNat limit + 1 = 0) (bytes : Bytes) :
    decode limit bytes = .ok [] := by
  rw [decode, h, UInt64.toNat_zero, Reader.readToEnd_of_nil (Reader.take_zero _ _ _)]
  exact if_neg (Nat.not_lt_zero _)

/-- **Decoding** reports the fault that shows when one octet more than the limit is asked for;
without one it gives the output if that is within the limit. -/
theorem decode_eq (hlimit : limit + 1 < UInt64.size) (bytes : Bytes) :
    decode limit bytes =
      match (Decoder.header bytes).fault? (limit + 1) with
      | some e => .error e
      | none =>
        if limit < (Decoder.header bytes).output.length then .error (.tooLarge limit)
        else .ok (Decoder.header bytes).output := by
  have hleft : (UInt64.ofNat limit + 1).toNat = limit + 1 := by
    rw [UInt64.toNat_add, UInt64.toNat_ofNat_of_lt' (Nat.lt_of_succ_lt hlimit)]
    exact Nat.mod_eq_of_lt hlimit
  rw [decode, hleft, Decoder.describes_read.readToEnd_eq (by decide)]
  cases (Decoder.header bytes).fault? (limit + 1) with
  | some e => rfl
  | none =>
    rw [Option.elim_none]
    dsimp only
    -- one octet more than the limit was read exactly if the output has that octet
    rw [List.length_take]
    by_cases hlt : limit < (Decoder.header bytes).output.length
    · rw [if_pos hlt, if_pos (Nat.lt_min.2 ⟨Nat.lt_succ_self limit, hlt⟩)]
    · rw [if_neg hlt, if_neg fun h => hlt (Nat.lt_of_lt_of_le h (Nat.min_le_right _ _)),
        List.take_of_length_le (Nat.le_succ_of_le (Nat.le_of_not_lt hlt))]

/-- **The trailer** is looked at exactly if the output that the data holds is within the limit. -/
theorem decode_of_inflates (hlimit : limit + 1 < UInt64.size)
    (hheader : dropHeader bytes = .ok data)
    (hdata : Deflate.Inflates data out.toArray rest) :
    decode limit bytes =
      if limit < out.length then .error (.tooLarge limit)
      else (checkTrailer out rest).map fun _ => out := by
  have hlast := Deflate.inflates_iff_last.1 hdata
  rw [decode_eq hlimit]
  simp only [Decoder.fault?, Decoder.output, hheader, hlast, Decoder.faultAt?, List.size_toArray]
  by_cases hlt : limit < out.length
  · simp only [if_pos hlt, if_neg (Nat.not_le.2 hlt)]
  · simp only [if_neg hlt, if_pos (Nat.le_of_not_lt hlt)]
    cases checkTrailer out rest <;> rfl

/-- A member is decoded if its octets are within the limit, and refused as too large if not. -/
theorem decode_of_member (hlimit : limit + 1 < UInt64.size) (h : Member bytes out) :
    decode limit bytes = if limit < out.length then .error (.tooLarge limit) else .ok out := by
  obtain ⟨rfl, hfault⟩ := member_iff.1 h
  rw [decode_eq hlimit, hfault]

/-- What is decoded is within the limit, and is the output of a member. -/
theorem member_of_decode (hlimit : limit + 1 < UInt64.size) (h : decode limit bytes = .ok out) :
    out.length ≤ limit ∧ Member bytes out := by
  rw [decode_eq hlimit] at h
  split at h
  · cases h
  rename_i hfault
  split at h
  · cases h
  rename_i hle
  obtain rfl := Except.ok.inj h
  exact ⟨Nat.le_of_not_lt hle, member_of_fault?_eq_none hfault (Nat.le_of_not_lt hle)⟩

/-- **The limit is exact**, and does not weaken the checks. A member is decoded to its output if
that is within the limit, and otherwise refused for its size; what is decoded is the output of a
member and within the limit. The trailer of what the data holds is looked at exactly if that is
within the limit, and data without its trailer is decoded with no limit at all. So what is decoded
is decoded with any larger limit too. -/
theorem decode_within_limit (hlimit : limit + 1 < UInt64.size) (bytes : Bytes) :
    (∀ out, Member bytes out →
      (out.length ≤ limit → decode limit bytes = .ok out) ∧
      (limit < out.length → ∃ error, decode limit bytes = .error error ∧ error.kind = .invalidData ∧
        error.message = s!"decompressed body exceeds {limit} bytes")) ∧
    (∀ out, decode limit bytes = .ok out → out.length ≤ limit ∧ Member bytes out) ∧
    (∀ data out rest, dropHeader bytes = .ok data → Deflate.Inflates data out.toArray rest →
      decode limit bytes =
        if limit < out.length then .error (.tooLarge limit)
        else (checkTrailer out rest).map fun _ => out) ∧
    (∀ data out rest, dropHeader bytes = .ok data → Deflate.Inflates data out.toArray rest →
      ¬ trailer out <+: rest → ∀ out', decode limit bytes ≠ .ok out') ∧
    ∀ out limit', limit ≤ limit' → limit' + 1 < UInt64.size → decode limit bytes = .ok out →
      decode limit' bytes = .ok out := by
  refine ⟨fun out hmember => ⟨fun hle => ?_, fun hlt => ⟨.tooLarge limit, ?_, rfl, rfl⟩⟩,
    fun out => member_of_decode hlimit, fun data out rest => decode_of_inflates hlimit,
    fun data out rest hheader hdata htrailer out' h => ?_, fun out limit' hle hlimit' h => ?_⟩
  · rw [decode_of_member hlimit hmember, if_neg (Nat.not_lt.2 hle)]
  · rw [decode_of_member hlimit hmember, if_pos hlt]
  · obtain ⟨-, data', rest', hheader', hdata', htrailer'⟩ := member_of_decode hlimit h
    cases hheader.symm.trans hheader'
    obtain ⟨hout, rfl⟩ := hdata.unique hdata'
    rw [← List.toArray_inj hout] at htrailer'
    exact htrailer htrailer'
  · obtain ⟨hlength, hmember⟩ := member_of_decode hlimit h
    rw [decode_of_member hlimit' hmember, if_neg (Nat.not_lt.2 (Nat.le_trans hlength hle))]

/-- Two stored blocks that hold `hello`, and octets behind them. -/
def storedHello (behind : Bytes) : Bytes :=
  [0, 2, 0, 0xFD, 0xFF, 0x68, 0x65, 1, 3, 0, 0xFC, 0xFF, 0x6C, 0x6C, 0x6F] ++ behind

/-- A member that holds `hello`, if the octets behind its data are the trailer for that. -/
def helloMember (behind : Bytes) : Bytes :=
    [0x1F, 0x8B, 8, 0, 0, 0, 0, 0, 0, 0xFF] ++ storedHello behind

/-- The data of the example holds five octets in two stored blocks. -/
theorem inflates_storedHello (behind : Bytes) :
    Deflate.Inflates (storedHello behind) [0x68, 0x65, 0x6C, 0x6C, 0x6F].toArray behind := by
  have hfirst : Deflate.Stored #[] (storedHello behind).tail #[0x68, 0x65]
      (1 :: 3 :: 0 :: 0xFC :: 0xFF :: 0x6C :: 0x6C :: 0x6F :: behind) :=
    @Deflate.Stored.mk #[] 2 0 0xFD 0xFF [0x68, 0x65] _ rfl rfl
  have hsecond : Deflate.Stored #[0x68, 0x65]
      (3 :: 0 :: 0xFC :: 0xFF :: 0x6C :: 0x6C :: 0x6F :: behind)
      #[0x68, 0x65, 0x6C, 0x6C, 0x6F] behind :=
    @Deflate.Stored.mk #[0x68, 0x65] 3 0 0xFC 0xFF [0x6C, 0x6C, 0x6F] _ rfl rfl
  have hlast : Deflate.Blocks #[0x68, 0x65] (.ofBytes
      (1 :: 3 :: 0 :: 0xFC :: 0xFF :: 0x6C :: 0x6C ::
      0x6F :: behind)) #[0x68, 0x65, 0x6C, 0x6C, 0x6F] (Bits.ofBytes behind).align :=
    .last rfl rfl (.stored hsecond)
  exact .more rfl (by decide) (.stored hfirst) hlast

/-- With a limit of five octets `hello` is decoded, and with one of four it is refused for its size;
with another check value it is not decoded. -/
theorem decode_within_limit_hello :
    5 + 1 < UInt64.size ∧
    decode 5 (helloMember [0x86, 0xA6, 0x10, 0x36, 5, 0, 0, 0]) =
      .ok [0x68, 0x65, 0x6C, 0x6C, 0x6F] ∧
    (∃ error, decode 4 (helloMember [0x86, 0xA6, 0x10, 0x36, 5, 0, 0, 0]) = .error error ∧
      error.kind = .invalidData ∧ error.message = "decompressed body exceeds 4 bytes") ∧
    ∀ out, decode 5 (helloMember [0x87, 0xA6, 0x10, 0x36, 5, 0, 0, 0]) ≠ .ok out := by
  have hmember : Member (helloMember [0x86, 0xA6, 0x10, 0x36, 5, 0, 0, 0])
      [0x68, 0x65, 0x6C, 0x6C, 0x6F] :=
    ⟨_, _, rfl, inflates_storedHello _, by decide +kernel⟩
  refine ⟨by decide, ?_, ?_, ?_⟩
  · exact ((decode_within_limit (by decide) _).1 _ hmember).1 (by decide)
  · exact ((decode_within_limit (by decide) _).1 _ hmember).2 (by decide)
  · exact (decode_within_limit (by decide) _).2.2.2.1 _ _ _ rfl (inflates_storedHello _)
      (by decide +kernel)

end HttpEcho.Gzip
