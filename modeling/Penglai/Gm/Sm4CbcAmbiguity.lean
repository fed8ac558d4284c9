import Penglai.Gm.Sm4Cbc

namespace Penglai.Gm

/-! # What a CBC ciphertext determines

The last block is filled up with zeros and the length is not stored, so a ciphertext
determines the padded text and no more; the size that decryption returns is that of the
padded text. -/

def Unambiguous (key iv : Bytes 16) (plainText plainText' : List UInt8) : Prop :=
  ∀ (stale stale' : Bytes 16) (cipherText : Buffer) (cipherTextLen : Int) (result : Nat × Buffer),
    ((plainText.length + 15) / 16 * 16 : Nat) ≤ cipherTextLen →
    ((plainText'.length + 15) / 16 * 16 : Nat) ≤ cipherTextLen →
    sm4CbcEncrypt key iv stale plainText cipherText cipherTextLen = some result →
    sm4CbcEncrypt key iv stale' plainText' cipherText cipherTextLen = some result →
    plainText = plainText'

def ZeroExtends (plainText plainText' : List UInt8) : Prop :=
  (plainText.length + 15) / 16 = (plainText'.length + 15) / 16 ∧
  plainText.length < plainText'.length ∧
  plainText' = plainText ++ List.replicate (plainText'.length - plainText.length) 0

def Short (plainText : List UInt8) : Prop := plainText.length + 16 < 2 ^ 31

instance (plainText : List UInt8) : Decidable (Short plainText) :=
  inferInstanceAs (Decidable (_ < _))

/-- The texts differ by zeros at the end of the last block only. -/
def Ambiguous (plainText plainText' : List UInt8) : Prop :=
  Short plainText ∧ Short plainText' ∧
  (ZeroExtends plainText plainText' ∨ ZeroExtends plainText' plainText)

/-! ## Padded texts -/

theorem zeroExtends_of_append {plainText plainText' : List UInt8} {back : List UInt8}
    (blocks : (plainText.length + 15) / 16 = (plainText'.length + 15) / 16)
    (different : plainText ≠ plainText') (extended : plainText' = plainText ++ back)
    (zeros : ∀ byte ∈ back, byte = 0) : ZeroExtends plainText plainText' := by
  have nonempty : 0 < back.length := by
    rw [List.length_pos_iff]
    rintro rfl
    exact different (by rw [extended, List.append_nil])
  have all : back = List.replicate back.length 0 := List.eq_replicate_iff.mpr ⟨rfl, zeros⟩
  refine ⟨blocks, ?_, ?_⟩
  · rw [extended, List.length_append]
    omega
  · rw [extended, List.length_append, Nat.add_sub_cancel_left, ← all]

theorem padZeros_of_zeroExtends {plainText plainText' : List UInt8}
    (extension : ZeroExtends plainText plainText') : padZeros plainText = padZeros plainText' := by
  rcases extension with ⟨blocks, longer, extended⟩
  have room : plainText'.length ≤ (plainText'.length + 15) / 16 * 16 := by omega
  rw [padZeros, padZeros, blocks]
  conv_rhs => rw [extended]
  rw [List.append_assoc, List.length_append, List.length_replicate, List.replicate_append_replicate]
  congr 2
  omega

theorem zeroExtends_of_padZeros {plainText plainText' : List UInt8}
    (different : plainText ≠ plainText') (same : padZeros plainText = padZeros plainText') :
    ZeroExtends plainText plainText' ∨ ZeroExtends plainText' plainText := by
  have blocks : (plainText.length + 15) / 16 = (plainText'.length + 15) / 16 := by
    have lengths := congrArg List.length same
    rw [padZeros_length, padZeros_length] at lengths
    omega
  rw [padZeros, padZeros] at same
  rcases List.append_eq_append_iff.mp same with ⟨back, extended, zeros⟩ | ⟨back, extended, zeros⟩
  · refine Or.inl (zeroExtends_of_append blocks different extended fun byte member => ?_)
    have inZeros : byte ∈ List.replicate _ (0 : UInt8) := zeros ▸ List.mem_append_left _ member
    exact List.eq_of_mem_replicate inZeros
  · refine Or.inr (zeroExtends_of_append blocks.symm different.symm extended fun byte member => ?_)
    have inZeros : byte ∈ List.replicate _ (0 : UInt8) := zeros ▸ List.mem_append_left _ member
    exact List.eq_of_mem_replicate inZeros

theorem Ambiguous.same_padded {plainText plainText' : List UInt8}
    (ambiguous : Ambiguous plainText plainText') :
    plainText ≠ plainText' ∧
      (plainText.length + 15) / 16 = (plainText'.length + 15) / 16 ∧
      padZeros plainText = padZeros plainText' := by
  rcases ambiguous with ⟨_, _, extension | extension⟩
  · refine ⟨?_, extension.1, padZeros_of_zeroExtends extension⟩
    rintro rfl
    exact absurd extension.2.1 (Nat.lt_irrefl _)
  · refine ⟨?_, extension.1.symm, (padZeros_of_zeroExtends extension).symm⟩
    rintro rfl
    exact absurd extension.2.1 (Nat.lt_irrefl _)

/-! ## Ciphertexts -/

section Ciphertexts

variable (key iv : Bytes 16)

theorem cbcCiphertext_inj {plainText plainText' : List UInt8} :
    cbcCiphertext key iv plainText = cbcCiphertext key iv plainText' ↔
      padZeros plainText = padZeros plainText' := by
  constructor
  · intro same
    rw [← joinBlocks_unchainedBlocks key iv plainText, same, joinBlocks_unchainedBlocks]
  · intro same
    rw [cbcCiphertext, same, ← cbcCiphertext]

theorem sm4CbcEncrypt_of_short {plainText : List UInt8} (short : Short plainText)
    (stale : Bytes 16) (cipherText : Buffer) {cipherTextLen : Int}
    (room : ((plainText.length + 15) / 16 * 16 : Nat) ≤ cipherTextLen) :
    sm4CbcEncrypt key iv stale plainText cipherText cipherTextLen =
      some ((cbcCiphertext key iv plainText).length,
        cipherText.copy 0 (cbcCiphertext key iv plainText)) := by
  rw [sm4CbcEncrypt_eq key iv stale plainText cipherText short, if_neg (Int.not_lt.mpr room),
    ← cbcCiphertext_eq, cbcCiphertext_length, Nat.mul_comm 16]

theorem short_of_encrypt {plainText : List UInt8} {stale : Bytes 16} {cipherText : Buffer}
    {cipherTextLen : Int} {result : Nat × Buffer}
    (encrypted : sm4CbcEncrypt key iv stale plainText cipherText cipherTextLen = some result) :
    Short plainText := by
  by_contra long
  have overflow : cbcCipherTextLen plainText.length = none := if_neg long
  rw [sm4CbcEncrypt, overflow] at encrypted
  cases encrypted

/-- The texts of a ciphertext are equal exactly if they do not differ by zeros at the end
of the last block. -/
theorem unambiguous_iff (plainText plainText' : List UInt8) :
    Unambiguous key iv plainText plainText' ↔ ¬Ambiguous plainText plainText' := by
  constructor
  · intro unambiguous ambiguous
    rcases ambiguous.same_padded with ⟨different, sameCount, same⟩
    rcases ambiguous with ⟨short, short', -⟩
    have blocks : (plainText.length + 15) / 16 * 16 = (plainText'.length + 15) / 16 * 16 := by
      rw [sameCount]
    have first := sm4CbcEncrypt_of_short key iv short zeroBlock ⟨fun _ => 0⟩ (Int.le_refl _)
    have second := sm4CbcEncrypt_of_short key iv short' zeroBlock ⟨fun _ => 0⟩
      (Int.le_of_eq (congrArg _ blocks.symm))
    rw [(cbcCiphertext_inj key iv).mpr same] at first
    exact different (unambiguous _ _ _ _ _ (Int.le_refl _)
      (Int.le_of_eq (congrArg _ blocks.symm)) first second)
  · intro distinct stale stale' cipherText cipherTextLen result room room' encrypted encrypted'
    have short := short_of_encrypt key iv encrypted
    have short' := short_of_encrypt key iv encrypted'
    rw [sm4CbcEncrypt_of_short key iv short stale cipherText room] at encrypted
    rw [sm4CbcEncrypt_of_short key iv short' stale' cipherText room', ← encrypted,
      Option.some.injEq, Prod.mk.injEq] at encrypted'
    rcases encrypted' with ⟨length, buffer⟩
    have ciphertext : cbcCiphertext key iv plainText = cbcCiphertext key iv plainText' := by
      rw [← Buffer.bytes_copy_self cipherText (cbcCiphertext key iv plainText), ← buffer, ← length,
        Buffer.bytes_copy_self]
    by_contra different
    exact distinct ⟨short, short', zeroExtends_of_padZeros different
      ((cbcCiphertext_inj key iv).mp ciphertext)⟩

/-- The size that decryption returns is that of the text exactly if the text fills its
blocks. -/
theorem sm4CbcDecrypt_size_iff (stale : Bytes 16) (plainText : List UInt8) (text : Buffer)
    {plainTextLen : Int} (room : (16 * ((plainText.length + 15) / 16) : Nat) ≤ plainTextLen) :
    (sm4CbcDecrypt key iv stale (cbcCiphertext key iv plainText) text plainTextLen).1 =
        plainText.length ↔ 16 ∣ plainText.length := by
  have aligned : (cbcCiphertext key iv plainText).length % 16 = 0 := by
    rw [cbcCiphertext_length, Nat.mul_mod_right]
  rw [sm4CbcDecrypt_eq key iv stale _ text aligned, joinBlocks_unchainedBlocks, List.length_take,
    padZeros_length]
  omega

end Ciphertexts

theorem oneByte_ambiguous :
    ¬∀ (key iv : Bytes 16) (plainText plainText' : List UInt8),
      Unambiguous key iv plainText plainText' := by
  intro unambiguous
  have same : padZeros [7] = padZeros [7, 0] := by decide
  have ciphertext := (cbcCiphertext_inj zeroBlock zeroBlock).mpr same
  have first := sm4CbcEncrypt_of_short zeroBlock zeroBlock (show Short [7] by decide) zeroBlock
    ⟨fun _ => 0⟩ (show ((([7] : List UInt8).length + 15) / 16 * 16 : Nat) ≤ (16 : Int) by decide)
  have second := sm4CbcEncrypt_of_short zeroBlock zeroBlock (show Short [7, 0] by decide) zeroBlock
    ⟨fun _ => 0⟩ (show ((([7, 0] : List UInt8).length + 15) / 16 * 16 : Nat) ≤ (16 : Int) by decide)
  rw [ciphertext] at first
  exact absurd (unambiguous _ _ _ _ _ _ _ _ _ (by decide) (by decide) first second) (by decide)

end Penglai.Gm
