import Penglai.Gm.OcbDecryption

namespace Penglai.Gm

/-! # The bounds of the offset table

Every index into `l` is below `l_length`, unless neither input has a whole block. Then
the unbracketed conditional of `ocb_ntz_round` makes the table empty. -/

/-- The indices into `l`: entry 0, the doubling loop, the blocks of the message and
those of the associated data. -/
def tableIndices (messageLength associatedDataLength : Nat) : List Nat :=
  0 :: List.range' 1 (ocbLLength messageLength associatedDataLength - 1) ++
    ((List.range (messageLength / 16)).map (fun i => ocbNtz (i + 1)) ++
      (List.range (associatedDataLength / 16)).map (fun i => ocbNtz (i + 1)))

def InBounds (messageLength associatedDataLength : Nat) : Prop :=
  ∀ index ∈ tableIndices messageLength associatedDataLength,
    index < ocbLLength messageLength associatedDataLength

theorem ocbLLength_eq_zero {messageLength associatedDataLength : Nat}
    (small : ¬(16 ≤ messageLength ∨ 16 ≤ associatedDataLength)) :
    ocbLLength messageLength associatedDataLength = 0 := by
  have message : messageLength / 16 = 0 := by omega
  have associated : associatedDataLength / 16 = 0 := by omega
  rw [ocbLLength, message, associated, ite_self]
  rfl

theorem ocbNtz_lt {count longest i : Nat} (inside : i < count) (covered : count ≤ longest)
    (small : longest < 2 ^ 32) : ocbNtz (i + 1) < longest.log2 + 1 := by
  rw [ocbNtz_eq_ntz (Nat.succ_pos i) (by omega)]
  exact Nat.lt_succ_of_le (ntz_le_log2 (Nat.succ_pos i) (by omega))

theorem inBounds_iff {messageLength associatedDataLength : Nat}
    (messageBound : messageLength < 2 ^ 31) (associatedBound : associatedDataLength < 2 ^ 31) :
    InBounds messageLength associatedDataLength ↔
      16 ≤ messageLength ∨ 16 ≤ associatedDataLength := by
  constructor
  · intro inBounds
    by_contra small
    have first := inBounds 0 (by simp [tableIndices])
    rw [ocbLLength_eq_zero small] at first
    exact absurd first (Nat.lt_irrefl 0)
  · intro hasBlock index used
    rcases ocbLLength_eq messageBound associatedBound hasBlock with
      ⟨longest, message, associated, size, small⟩
    rw [tableIndices, size, List.mem_append, List.mem_append, List.mem_cons, List.mem_range'_1,
      List.mem_map, List.mem_map] at used
    rw [size]
    rcases used with (first | doubling) | ⟨i, inside, rfl⟩ | ⟨i, inside, rfl⟩
    · omega
    · omega
    · exact ocbNtz_lt (List.mem_range.mp inside) message small
    · exact ocbNtz_lt (List.mem_range.mp inside) associated small

/-! ## The functions -/

section Functions

variable (key : Bytes 16) {nonce : List UInt8} {messageLength : Nat} {associatedData : List UInt8}

theorem ocbSetup_of_small {associatedDataLength : Nat}
    (small : ¬(16 ≤ messageLength ∨ 16 ≤ associatedDataLength)) :
    ocbSetup key nonce messageLength associatedDataLength = none := by
  have empty := ocbLLength_eq_zero small
  rw [ocbLLength] at empty
  simp only [ocbSetup, empty, ocbTable, if_true, Option.bind_eq_bind, Option.bind_none]

theorem sm4OcbEncrypt_isSome_iff (short : nonce.length ≤ 15) {message : List UInt8}
    (messageBound : message.length < 2 ^ 31) (associatedBound : associatedData.length < 2 ^ 31)
    (stale : Bytes 16) (out : Buffer) :
    (sm4OcbEncrypt key nonce message associatedData stale out).isSome ↔
      16 ≤ message.length ∨ 16 ≤ associatedData.length := by
  constructor
  · intro returned
    by_contra small
    rw [sm4OcbEncrypt, ocbSetup_of_small key small] at returned
    cases returned
  · intro hasBlock
    rcases sm4OcbEncrypt_spec key short messageBound associatedBound hasBlock stale out with
      ⟨after, encrypted, _⟩
    rw [encrypted]
    rfl

theorem sm4OcbDecrypt_isSome_iff (short : nonce.length ≤ 15) (encrypted : List UInt8)
    (messageBound : messageLength < 2 ^ 31) (associatedBound : associatedData.length < 2 ^ 31)
    (stale : Bytes 16) (out : Buffer) :
    (sm4OcbDecrypt key nonce encrypted associatedData messageLength stale out).isSome ↔
      16 ≤ messageLength ∨ 16 ≤ associatedData.length := by
  constructor
  · intro returned
    by_contra small
    rw [sm4OcbDecrypt, ocbSetup_of_small key small] at returned
    cases returned
  · intro hasBlock
    rcases ocbSetup_spec key short messageBound associatedBound hasBlock with
      ⟨setup, prepared, setupFor⟩
    rcases ocbBlocks_spec setupFor.messageTable
      (fun block => (sm4Decipher_ofBytes key block).symm) setup.offset
      (out.copy 0 (encrypted.take (messageLength ^^^ (messageLength % 16)))) with
      ⟨⟨offset, blocksOut⟩, looped, _⟩
    simp only [sm4OcbDecrypt, prepared, looped, Option.bind_eq_bind, Option.bind_some]
    rcases ocbTag_spec setupFor stale _ _ with ⟨tag, tagged, _⟩
    rw [tagged]
    rfl

end Functions

/-- Every index into the table is below its length exactly if the message or the
associated data has a whole block, and exactly then the two functions return without an
access out of bounds. -/
theorem ocb_inBounds_iff (key : Bytes 16) {nonce : List UInt8} (short : nonce.length ≤ 15)
    (message encrypted associatedData : List UInt8) (encryptedLength : Nat)
    (messageBound : message.length < 2 ^ 31) (encryptedBound : encryptedLength < 2 ^ 31)
    (associatedBound : associatedData.length < 2 ^ 31) (stale : Bytes 16) (out : Buffer) :
    (InBounds message.length associatedData.length ↔
      16 ≤ message.length ∨ 16 ≤ associatedData.length) ∧
    ((sm4OcbEncrypt key nonce message associatedData stale out).isSome ↔
      16 ≤ message.length ∨ 16 ≤ associatedData.length) ∧
    (InBounds encryptedLength associatedData.length ↔
      16 ≤ encryptedLength ∨ 16 ≤ associatedData.length) ∧
    ((sm4OcbDecrypt key nonce encrypted associatedData encryptedLength stale out).isSome ↔
      16 ≤ encryptedLength ∨ 16 ≤ associatedData.length) :=
  ⟨inBounds_iff messageBound associatedBound,
    sm4OcbEncrypt_isSome_iff key short messageBound associatedBound stale out,
    inBounds_iff encryptedBound associatedBound,
    sm4OcbDecrypt_isSome_iff key short encrypted encryptedBound associatedBound stale out⟩

theorem ocb_inBounds_three :
    InBounds [1, 2, 3].length (List.replicate 16 (0 : UInt8)).length :=
  (ocb_inBounds_iff zeroBlock (show ([7] : List UInt8).length ≤ 15 by decide) [1, 2, 3] []
    (List.replicate 16 0) 3 (by decide) (by decide) (by decide) zeroBlock
    ⟨fun _ => 0⟩).1.mpr (Or.inr (by decide))

theorem ocb_three_outOfBounds :
    ¬InBounds [1, 2, 3].length 0 ∧
      ¬(sm4OcbEncrypt zeroBlock [] [1, 2, 3] [] zeroBlock ⟨fun _ => 0⟩).isSome := by
  constructor
  · rw [inBounds_iff (by decide) (by decide)]
    decide
  · rw [sm4OcbEncrypt_isSome_iff zeroBlock (by decide) (by decide) (by decide)]
    decide

end Penglai.Gm
