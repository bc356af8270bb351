import HttpEcho.Proofs.Gzip.Bits
import HttpEcho.Proofs.Gzip.Inflation

/-!
# Writing deflated data

Deflated data can be written as any sequence of blocks, each of which is stored or has its octets in
the fixed code of literals (`Deflate.BlockText`). What is written that way holds the octets of all
blocks (`Deflate.inflates_wire`).

The codes are those of the format: the words for octets have eight or nine bits, and their most
significant bit comes first (`Deflate.literalWord`). That they are the words of the decoding tree,
which is built from the lengths of the words, is a calculation; that reading undoes writing is an
induction on the blocks, and on the octets of a block, with the place in the bits as what is kept
up.
-/

namespace HttpEcho

namespace CodeTree

variable {tree : CodeTree} {word : List Bool} {symbol used : Nat} {text : List Bool} {bits : Bits}

/-- The tree below the end of a word. -/
def follow : CodeTree → List Bool → CodeTree
  | tree, [] => tree
  | tree, bit :: word => (tree.child bit).follow word

theorem follow_empty (word : List Bool) : empty.follow word = empty := by
  induction word with
  | nil => rfl
  | cons bit word ih => exact ih

/-- A walk along a word ends at its symbol. -/
theorem exists_walk_of_follow (h : tree.follow word = .symbol symbol)
    (hbits : Bits.At used (word ++ text) bits) :
    ∃ rest, tree.walk bits = .ok (symbol, rest) ∧ Bits.At (used + word.length) text rest := by
  induction word generalizing tree bits used with
  | nil =>
    rw [follow] at h
    exact ⟨bits, by rw [h, walk], hbits⟩
  | cons bit word ih =>
    have hbits : Bits.At used (bit :: (word ++ text)) bits := hbits
    rw [follow] at h
    obtain ⟨next, hnext, hat⟩ := hbits.exists_next
    obtain ⟨rest, hwalk, hrest⟩ := ih h hat
    rw [Nat.add_assoc, Nat.add_comm 1] at hrest
    refine ⟨rest, ?_, hrest⟩
    cases tree with
    | empty | symbol =>
      -- no word goes on from here
      change empty.follow word = _ at h
      rw [follow_empty] at h
      cases h
    | branch zero one =>
      rw [walk, hnext]
      cases bit with
      | false => exact hwalk
      | true => exact hwalk

/-- **A code word** is read as its symbol. -/
theorem exists_decode_of_follow (h : tree.follow word = .symbol symbol) (hne : word ≠ [])
    (hbits : Bits.At used (word ++ text) bits) :
    ∃ rest, tree.decode bits = .ok (symbol, rest) ∧ Bits.At (used + word.length) text rest := by
  cases word with
  | nil => exact absurd rfl hne
  | cons bit word =>
    have hbits : Bits.At used (bit :: (word ++ text)) bits := hbits
    have h : (tree.child bit).follow word = .symbol symbol := h
    obtain ⟨next, hnext, hat⟩ := hbits.exists_next
    obtain ⟨rest, hwalk, hrest⟩ := exists_walk_of_follow h hat
    rw [Nat.add_assoc, Nat.add_comm 1] at hrest
    refine ⟨rest, ?_, hrest⟩
    rw [decode, hnext]
    exact hwalk

end CodeTree

namespace Deflate

variable {used : Nat} {text : List Bool} {s : Bits} {out : Array UInt8}

/-! ### The fixed code -/

/-- The bits of a code word, the most significant one first. -/
def codeWord (length code : Nat) : List Bool := (List.range length).reverse.map code.testBit

/-- The word for an octet in the fixed code: eight bits for the first 144 octets, nine for the
others. -/
def literalWord (b : UInt8) : List Bool :=
  if b.toNat < 144 then codeWord 8 (0x30 + b.toNat) else codeWord 9 (0x190 + (b.toNat - 144))

/-- The word for the end of a block in the fixed code. -/
def endWord : List Bool := codeWord 7 0

/-- The word for an octet leads to it in the fixed code. -/
theorem follow_literalWord (b : UInt8) :
    fixedLiterals.follow (literalWord b) = .symbol b.toNat := by
  have key : ∀ n < 256, fixedLiterals.follow
      (if n < 144 then codeWord 8 (0x30 + n) else codeWord 9 (0x190 + (n - 144))) = .symbol n := by
    decide +kernel
  exact key b.toNat b.toNat_lt

/-- The word for the end of a block leads to it in the fixed code. -/
theorem follow_endWord : fixedLiterals.follow endWord = .symbol 256 := by decide +kernel

theorem literalWord_ne_nil (b : UInt8) : literalWord b ≠ [] := by
  unfold literalWord codeWord
  split <;> exact List.cons_ne_nil _ _

theorem ofSymbol_toNat (b : UInt8) : Token.ofSymbol b.toNat = .literal b := by
  rw [Token.ofSymbol, if_pos b.toNat_lt]
  exact congrArg Token.literal UInt8.ofNat_toNat

/-- **Octets in the fixed code** are read as these octets. -/
theorem exists_coded (octets : Bytes)
    (h : Bits.At used (octets.flatMap literalWord ++ (endWord ++ text)) s) :
    ∃ rest, Coded fixedLiterals fixedDistances out s (out ++ octets) rest ∧
      Bits.At (used + (octets.flatMap literalWord ++ endWord).length) text rest := by
  induction octets generalizing used s out with
  | nil =>
    obtain ⟨rest, hdecode, hrest⟩ :=
      CodeTree.exists_decode_of_follow follow_endWord (List.cons_ne_nil _ _) h
    have hcoded : Coded fixedLiterals fixedDistances out s out rest := .stop hdecode rfl
    rw [← @Array.appendList_nil _ out] at hcoded
    exact ⟨rest, hcoded, hrest⟩
  | cons b octets ih =>
    rw [List.flatMap_cons, List.append_assoc] at h
    obtain ⟨next, hdecode, hnext⟩ :=
      CodeTree.exists_decode_of_follow (follow_literalWord b) (literalWord_ne_nil b) h
    obtain ⟨rest, hcoded, hrest⟩ := @ih _ _ (out.push b) hnext
    rw [← Array.appendList_cons] at hcoded
    refine ⟨rest, .literal hdecode (ofSymbol_toNat b) hcoded, ?_⟩
    rwa [List.flatMap_cons, List.append_assoc, List.length_append, ← Nat.add_assoc]

/-! ### Blocks -/

/-- The bits up to the next octet boundary: those of the padding as far as there are some, and
zeros. -/
def fill (padding : List Bool) (used : Nat) : List Bool :=
  (padding ++ List.replicate 8 false).take ((8 - used % 8) % 8)

theorem length_fill (padding : List Bool) (used : Nat) :
    (fill padding used).length = (8 - used % 8) % 8 := by
  rw [fill, List.length_take, List.length_append, List.length_replicate]
  omega

theorem length_fill_lt (padding : List Bool) (used : Nat) : (fill padding used).length < 8 :=
  length_fill padding used ▸ Nat.mod_lt _ (by decide)

/-- The bits that are filled up end with an octet. -/
theorem dvd_add_length_fill (padding : List Bool) (used : Nat) :
    8 ∣ used + (fill padding used).length := by
  rw [length_fill]
  omega

/-- A block as it can be written. -/
inductive BlockText where
  /-- The octets as they are, behind padding up to an octet boundary. -/
  | stored (padding : List Bool) (octets : Bytes) (length_le : octets.length ≤ 0xFFFF)
  /-- The octets in the fixed code. -/
  | coded (octets : Bytes)

namespace BlockText

/-- The octets of a block. -/
def octets : BlockText → Bytes
  | stored _ octets _ => octets
  | coded octets => octets

/-- What stands behind the octet boundary in a stored block: the length of the octets, the
complement of it, and the octets. -/
def storedOctets (octets : Bytes) : Bytes :=
  Gzip.octets 2 octets.length ++ (Gzip.octets 2 (0xFFFF - octets.length) ++ octets)

/-- The bits of a block that begins after `used` bits: whether it is the last one, its kind, and
what it holds. -/
def bits (last : Bool) (used : Nat) : BlockText → List Bool
  | stored padding octets _ =>
    [last, false, false] ++ (fill padding (used + 3) ++ (storedOctets octets).flatMap Bits.ofOctet)
  | coded octets => [last, true, false] ++ (octets.flatMap literalWord ++ endWord)

end BlockText

/-- A stored block holds its octets. -/
theorem stored_storedOctets {octets : Bytes} (h : octets.length ≤ 0xFFFF) (rest : Bytes) :
    Stored out (BlockText.storedOctets octets ++ rest) (out ++ octets) rest := by
  have hoctets : ∀ n ≤ 0xFFFF, (UInt8.ofNat n).toNat + 256 * (UInt8.ofNat (n / 256)).toNat = n := by
    intro n hn
    have hlt : n < 256 ^ 2 := Nat.lt_succ_of_le hn
    have hwhole := Gzip.littleEndian_octets 2 n
    rw [Nat.mod_eq_of_lt hlt] at hwhole
    exact hwhole
  have hlength := hoctets octets.length h
  have hcomplement := hoctets (0xFFFF - octets.length) (Nat.sub_le _ _)
  have hcheck : octets.length + ((UInt8.ofNat (0xFFFF - octets.length)).toNat +
      256 * (UInt8.ofNat ((0xFFFF - octets.length) / 256)).toNat) = 0xFFFF := by
    rw [hcomplement]
    omega
  exact .mk hlength.symm hcheck

/-- The three bits in front of a block. -/
theorem exists_readBits_head {last one two : Bool}
    (h : Bits.At used ([last, one, two] ++ text) s) :
    ∃ rest, readBits 3 s = .ok (Bits.value [last, one, two], rest) ∧
      Bits.At (used + 3) text rest := by
  obtain ⟨rest, hread, hrest⟩ := h.exists_read
  refine ⟨rest, ?_, hrest⟩
  have hread : s.read? 3 = some (Bits.value [last, one, two], rest) := hread
  rw [readBits, hread]

/-- **A block** is read as its octets, and leaves what follows it. -/
theorem exists_block (block : BlockText) (last : Bool)
    (h : Bits.At used (block.bits last used ++ text) s) :
    ∃ head next rest, readBits 3 s = .ok (head, next) ∧ (head % 2 = 1 ↔ last) ∧
      Block (head / 2) out next (out ++ block.octets) rest ∧
        Bits.At (used + (block.bits last used).length) text rest := by
  cases block with
  | stored padding octets hle =>
    rw [BlockText.bits, List.append_assoc] at h
    obtain ⟨next, hread, hnext⟩ := exists_readBits_head h
    rw [List.append_assoc] at hnext
    have halign := hnext.flatMap_align (length_fill_lt _ _) (dvd_add_length_fill _ _)
    obtain ⟨rest, hrest, htext⟩ := Bits.exists_of_flatMap_ofOctet_eq halign
    have hstored := @stored_storedOctets out octets hle rest
    rw [← hrest] at hstored
    have hlength : 8 ∣ used + ((BlockText.stored padding octets hle).bits last used).length := by
      rw [BlockText.bits, List.length_append, List.length_append, Bits.length_flatMap_ofOctet,
        ← Nat.add_assoc, ← Nat.add_assoc]
      exact Nat.dvd_add (dvd_add_length_fill padding (used + 3)) (Nat.dvd_mul_right 8 _)
    refine ⟨_, next, .ofBytes rest, hread, ?_, ?_, htext ▸ Bits.at_ofBytes rest hlength⟩
    · cases last <;> decide
    · cases last <;> exact .stored hstored
  | coded octets =>
    rw [BlockText.bits, List.append_assoc] at h
    obtain ⟨next, hread, hnext⟩ := exists_readBits_head h
    rw [List.append_assoc] at hnext
    obtain ⟨rest, hcoded, hrest⟩ := @exists_coded _ _ _ out octets hnext
    refine ⟨_, next, rest, hread, ?_, ?_, ?_⟩
    · cases last <;> decide
    · cases last <;> exact .fixed hcoded
    · rwa [BlockText.bits, List.length_append, ← Nat.add_assoc]

/-! ### Whole data -/

/-- The bits of blocks, of which the first begins after `used` bits and the last is marked. -/
def blockBits (used : Nat) : List BlockText → List Bool
  | [] => []
  | [block] => block.bits true used
  | block :: next :: blocks =>
    block.bits false used ++ blockBits (used + (block.bits false used).length) (next :: blocks)

theorem appendList_append (out : Array UInt8) (octets octets' : Bytes) :
    out ++ octets ++ octets' = out ++ (octets ++ octets') := by
  rw [← Array.toList_inj, Array.toList_appendList, Array.toList_appendList, Array.toList_appendList,
    List.append_assoc]

/-- **Blocks** are read as their octets, up to the octet boundary behind the last one. -/
theorem blocks_of_at {blocks : List BlockText} (hne : blocks ≠ []) {padding : List Bool}
    {rest : Bytes}
    (h : Bits.At used (blockBits used blocks ++
      (fill padding (used + (blockBits used blocks).length) ++ rest.flatMap Bits.ofOctet)) s) :
    Blocks out s (out ++ blocks.flatMap BlockText.octets) rest := by
  fun_induction blockBits used blocks generalizing s out with
  | case1 => exact absurd rfl hne
  | case2 used block =>
    obtain ⟨head, next, last, hread, hlast, hblock, hrest⟩ := exists_block block true h
    have halign := hrest.flatMap_align (length_fill_lt _ _) (dvd_add_length_fill _ _)
    rw [List.flatMap_cons, List.flatMap_nil, List.append_nil, ← Bits.flatMap_ofOctet_inj halign]
    exact .last hread (hlast.2 rfl) hblock
  | case3 used block next blocks ih =>
    rw [List.append_assoc, List.length_append, ← Nat.add_assoc] at h
    obtain ⟨head, s₁, s₂, hread, hlast, hblock, hrest⟩ := exists_block block false h
    rw [List.flatMap_cons, ← appendList_append]
    exact .more hread (mt hlast.1 Bool.false_ne_true) hblock (ih (List.cons_ne_nil _ _) hrest)

/-- Deflated data as it can be written: one block or more, and padding for the last octet. -/
structure DataText where
  blocks : List BlockText
  padding : List Bool
  blocks_ne_nil : blocks ≠ []

namespace DataText

/-- The octets that the data holds. -/
def octets (data : DataText) : Bytes := data.blocks.flatMap BlockText.octets

/-- The data as it is written. -/
def wire (data : DataText) : Bytes :=
  Bits.pack (blockBits 0 data.blocks ++ fill data.padding (blockBits 0 data.blocks).length)

end DataText

/-- **What is written** holds the octets of its blocks, whatever follows it. -/
theorem inflates_wire (data : DataText) (rest : Bytes) :
    Inflates (data.wire ++ rest) data.octets.toArray rest := by
  have hbits : data.wire.flatMap Bits.ofOctet =
      blockBits 0 data.blocks ++ fill data.padding (blockBits 0 data.blocks).length := by
    refine Bits.flatMap_ofOctet_pack ?_
    rw [List.length_append]
    exact dvd_add_length_fill _ _
  have hstart := Bits.at_ofBytes (data.wire ++ rest) (Nat.dvd_zero 8)
  rw [List.flatMap_append, hbits, List.append_assoc,
    ← Nat.zero_add (blockBits 0 data.blocks).length] at hstart
  have hblocks := @blocks_of_at _ _ #[] _ data.blocks_ne_nil _ _ hstart
  have hout : (#[] : Array UInt8) ++ data.octets = data.octets.toArray := by
    rw [← Array.toList_inj, Array.toList_appendList]
    rfl
  exact hout ▸ hblocks

example : DataText.wire ⟨[.coded [0x61]], [], List.cons_ne_nil _ _⟩ =
    [0x4B, 0x04, 0x00] := by decide

end Deflate

end HttpEcho
