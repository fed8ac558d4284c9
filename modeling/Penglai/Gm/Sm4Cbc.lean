import Penglai.Foundation.BlockAbsorb
import Penglai.Foundation.Cbc
import Penglai.Gm.Sm4Enc

namespace Penglai.Gm

/-! # SM4 in CBC mode (`gm/src/SM4_Enc.c`)

The lengths of the inputs are those of the strings given. A capacity is an `int`;
it is not compared with the buffer itself. -/

/-- `CBC_CipherText_Len`; `none` where the `int` addition overflows. -/
def cbcCipherTextLen (n : Nat) : Option Nat :=
  if n + 16 < 2 ^ 31 then some ((n + 16 - 1) / 16 * 16) else none

/-! ## Encryption -/

structure CbcEncryptState where
  ciphertext : Bytes 16
  cipherText : Buffer
  outputCursor : Nat

def cbcEncryptRound (key iv : Bytes 16) (plainText : List UInt8) (j : Nat)
    (state : CbcEncryptState) : CbcEncryptState :=
  let start := j * 16
  let stop := if start + 16 > plainText.length then plainText.length else start + 16
  let plaintext : Bytes 16 :=
    Vector.ofFn fun i => if i.val < stop - start then plainText.getD (start + i.val) 0 else 0
  let input : Bytes 16 :=
    Vector.ofFn fun i =>
      if j = 0 then plaintext[i] ^^^ iv[i] else plaintext[i] ^^^ state.ciphertext[i]
  let ciphertext := sm4Encrypt key input
  { ciphertext
    cipherText := state.cipherText.write state.outputCursor ciphertext
    outputCursor := state.outputCursor + 16 }

/-- `SM4_CBC_Encrypt`: the status and the buffer `CipherText` after the call. `stale` is
what the stack held in `ciphertext`. -/
def sm4CbcEncrypt (key iv stale : Bytes 16) (plainText : List UInt8) (cipherText : Buffer)
    (cipherTextLen : Int) : Option (Nat × Buffer) := do
  let length ← cbcCipherTextLen plainText.length
  if cipherTextLen < length then some (0, cipherText)
  else
    let rounds := length / 16
    let state := forRange 0 rounds (cbcEncryptRound key iv plainText)
      { ciphertext := stale, cipherText, outputCursor := 0 }
    some (state.outputCursor, state.cipherText)

/-! ## Decryption -/

structure CbcDecryptState where
  input : Bytes 16
  plainText : Buffer
  outputCursor : Nat

def copyPlaintext (plaintext : Bytes 16) (count : Nat) (plainText : Buffer) (outputCursor : Nat) :
    Buffer × Nat :=
  forRange 0 count
    (fun k (plainText, outputCursor) => (plainText.set outputCursor plaintext[k]!, outputCursor + 1))
    (plainText, outputCursor)

/-- One iteration of the loop of `SM4_CBC_Decrypt`; `stop - start` may be negative. -/
def cbcDecryptRound (key iv : Bytes 16) (cipherText : List UInt8) (plainTextLen : Int) (j : Nat)
    (state : CbcDecryptState) : CbcDecryptState :=
  let start : Int := j * 16
  let stop := if start + 16 > plainTextLen then plainTextLen else start + 16
  let ciphertext : Bytes 16 := Vector.ofFn fun i => cipherText.getD (j * 16 + i.val) 0
  let output := sm4Decrypt key ciphertext
  let plaintext : Bytes 16 :=
    Vector.ofFn fun i => if j = 0 then iv[i] ^^^ output[i] else state.input[i] ^^^ output[i]
  let (plainText, outputCursor) :=
    copyPlaintext plaintext (stop - start).toNat state.plainText state.outputCursor
  { input := ciphertext, plainText, outputCursor }

/-- `SM4_CBC_Decrypt`: the status and the buffer `PlainText` after the call. `stale` is
what the stack held in `input`. -/
def sm4CbcDecrypt (key iv stale : Bytes 16) (cipherText : List UInt8) (plainText : Buffer)
    (plainTextLen : Int) : Nat × Buffer :=
  if cipherText.length % 16 ≠ 0 then (0, plainText)
  else
    let rounds := cipherText.length / 16
    let state := forRange 0 rounds (cbcDecryptRound key iv cipherText plainTextLen)
      { input := stale, plainText, outputCursor := 0 }
    (state.outputCursor, state.plainText)

/-! ## The loops as chaining -/

def joinBlocks (blocks : List (Bytes 16)) : List UInt8 := blocks.flatMap fun block => block.toList

@[simp] theorem joinBlocks_concat (blocks : List (Bytes 16)) (block : Bytes 16) :
    joinBlocks (blocks ++ [block]) = joinBlocks blocks ++ block.toList := by
  simp [joinBlocks]

@[simp] theorem joinBlocks_length (blocks : List (Bytes 16)) :
    (joinBlocks blocks).length = 16 * blocks.length := length_flatMap_toList blocks

def padZeros (plainText : List UInt8) : List UInt8 :=
  plainText ++ List.replicate ((plainText.length + 15) / 16 * 16 - plainText.length) 0

def firstBlocks (text : List UInt8) (count : Nat) : List (Bytes 16) :=
  (List.range count).map (blockAt 16 text)

theorem firstBlocks_succ (text : List UInt8) (count : Nat) :
    firstBlocks text (count + 1) = firstBlocks text count ++ [blockAt 16 text count] := by
  rw [firstBlocks, firstBlocks, List.range_succ, List.map_append, List.map_singleton]

@[simp] theorem firstBlocks_length (text : List UInt8) (count : Nat) :
    (firstBlocks text count).length = count := by
  simp [firstBlocks]

theorem plaintext_eq_blockAt (plainText : List UInt8) (j : Nat) :
    (Vector.ofFn fun i : Fin 16 =>
      if i.val < (if j * 16 + 16 > plainText.length then plainText.length else j * 16 + 16) - j * 16
      then plainText.getD (j * 16 + i.val) 0 else 0) = blockAt 16 (padZeros plainText) j := by
  apply Vector.ext
  intro position inside
  rw [Vector.getElem_ofFn, blockAt, Vector.getElem_ofFn, Nat.mul_comm 16 j, padZeros]
  by_cases present : j * 16 + position < plainText.length
  · have counted : position <
        (if j * 16 + 16 > plainText.length then plainText.length else j * 16 + 16) - j * 16 := by
      split_ifs <;> omega
    rw [if_pos counted, List.getD_eq_getElem?_getD, List.getD_eq_getElem?_getD,
      List.getElem?_append_left present]
    rfl
  · have past : ¬position <
        (if j * 16 + 16 > plainText.length then plainText.length else j * 16 + 16) - j * 16 := by
      split_ifs <;> omega
    simp only [past, if_false, List.getD_eq_getElem?_getD]
    rw [List.getElem?_append_right (Nat.le_of_not_lt present), List.getElem?_replicate]
    split_ifs <;> rfl

theorem chained_eq (combine : UInt8 → UInt8 → UInt8) (iv stale plaintext : Bytes 16)
    (chain : List (Bytes 16)) {j : Nat} (length : chain.length = j) :
    (Vector.ofFn fun i : Fin 16 =>
      if j = 0 then combine plaintext[i] iv[i]
      else combine plaintext[i] (chain.getLastD stale)[i]) =
      Vector.zipWith combine plaintext (chain.getLastD iv) := by
  apply Vector.ext
  intro position inside
  rw [Vector.getElem_ofFn, Vector.getElem_zipWith]
  cases chain with
  | nil =>
      have first : j = 0 := length.symm
      rw [if_pos first]
      rfl
  | cons first rest =>
      have later : j ≠ 0 := length ▸ Nat.succ_ne_zero rest.length
      rw [if_neg later, List.getLastD_cons, List.getLastD_cons]
      rfl

section Encryption

variable (key iv stale : Bytes 16) (plainText : List UInt8) (cipherText : Buffer)

def chainedBlocks (count : Nat) : List (Bytes 16) :=
  cbcEncrypt xor16 (sm4Encrypt key) iv (firstBlocks (padZeros plainText) count)

@[simp] theorem chainedBlocks_length (count : Nat) :
    (chainedBlocks key iv plainText count).length = count := by
  simp [chainedBlocks]

theorem forRange_cbcEncryptRound (count : Nat) :
    forRange 0 count (cbcEncryptRound key iv plainText)
        { ciphertext := stale, cipherText, outputCursor := 0 } =
      { ciphertext := (chainedBlocks key iv plainText count).getLastD stale
        cipherText := cipherText.copy 0 (joinBlocks (chainedBlocks key iv plainText count))
        outputCursor := (joinBlocks (chainedBlocks key iv plainText count)).length } := by
  induction count with
  | zero => simp [chainedBlocks, firstBlocks, cbcEncrypt, joinBlocks]
  | succ count induction =>
      have next : chainedBlocks key iv plainText (count + 1) =
          chainedBlocks key iv plainText count ++
            [sm4Encrypt key (xor16 (blockAt 16 (padZeros plainText) count)
              ((chainedBlocks key iv plainText count).getLastD iv))] := by
        rw [chainedBlocks, firstBlocks_succ, cbcEncrypt_concat]
        rfl
      rw [forRange_succ, induction, Nat.zero_add, cbcEncryptRound]
      simp only [plaintext_eq_blockAt]
      rw [chained_eq (fun text chained => text ^^^ chained) iv stale _ _
        (chainedBlocks_length key iv plainText count)]
      rw [next, List.getLastD_concat, joinBlocks_concat, ← Buffer.copy_copy,
        ← Buffer.write_eq_copy, List.length_append, Vector.length_toList]
      rfl

theorem sm4CbcEncrypt_eq (bound : plainText.length + 16 < 2 ^ 31) (cipherTextLen : Int) :
    sm4CbcEncrypt key iv stale plainText cipherText cipherTextLen =
      if cipherTextLen < ((plainText.length + 15) / 16 * 16 : Nat) then some (0, cipherText)
      else
        some ((plainText.length + 15) / 16 * 16,
          cipherText.copy 0
            (joinBlocks (chainedBlocks key iv plainText ((plainText.length + 15) / 16)))) := by
  have length : cbcCipherTextLen plainText.length =
      some ((plainText.length + 15) / 16 * 16) := if_pos bound
  have rounds : (plainText.length + 15) / 16 * 16 / 16 = (plainText.length + 15) / 16 :=
    Nat.mul_div_cancel _ (by decide)
  rw [sm4CbcEncrypt, length, Option.bind_eq_bind, Option.bind_some]
  simp only [rounds, forRange_cbcEncryptRound, joinBlocks_length, chainedBlocks_length,
    Nat.mul_comm 16]

end Encryption

section Decryption

variable (key iv stale : Bytes 16) (cipherText : List UInt8) (plainText : Buffer)

def unchainedBlocks (count : Nat) : List (Bytes 16) :=
  cbcDecrypt xor16 (sm4Decrypt key) iv (firstBlocks cipherText count)

@[simp] theorem unchainedBlocks_length (count : Nat) :
    (unchainedBlocks key iv cipherText count).length = count := by
  simp [unchainedBlocks]

theorem stop_sub_start (plainTextLen : Int) (j : Nat) :
    ((if (j : Int) * 16 + 16 > plainTextLen then plainTextLen else (j : Int) * 16 + 16) -
      (j : Int) * 16).toNat = min (plainTextLen.toNat - 16 * j) 16 := by
  split_ifs <;> omega

theorem copyPlaintext_eq (plaintext : Bytes 16) {count : Nat} (bound : count ≤ 16)
    (front : List UInt8) :
    copyPlaintext plaintext count (plainText.copy 0 front) front.length =
      (plainText.copy 0 (front ++ plaintext.toList.take count),
        (front ++ plaintext.toList.take count).length) := by
  induction count with
  | zero => simp [copyPlaintext]
  | succ count induction =>
      have inside : count < plaintext.toList.length := by
        rw [Vector.length_toList]
        omega
      have byte : plaintext[count]! = plaintext.toList[count] := by
        rw [getElem!_pos plaintext count (by omega), Vector.getElem_toList]
      have before := induction (by omega)
      rw [copyPlaintext] at before ⊢
      rw [forRange_succ, before, Nat.zero_add, byte]
      simp only [Buffer.set_eq_copy, Buffer.copy_copy, List.append_assoc,
        List.take_concat_get' _ _ inside, Prod.mk.injEq, true_and]
      simp
      omega

theorem forRange_cbcDecryptRound (plainTextLen : Int) (count : Nat) :
    forRange 0 count (cbcDecryptRound key iv cipherText plainTextLen)
        { input := stale, plainText, outputCursor := 0 } =
      { input := (firstBlocks cipherText count).getLastD stale
        plainText := plainText.copy 0
          ((joinBlocks (unchainedBlocks key iv cipherText count)).take plainTextLen.toNat)
        outputCursor :=
          ((joinBlocks (unchainedBlocks key iv cipherText count)).take
            plainTextLen.toNat).length } := by
  induction count with
  | zero => simp [unchainedBlocks, firstBlocks, cbcDecrypt, joinBlocks]
  | succ count induction =>
      have next : unchainedBlocks key iv cipherText (count + 1) =
          unchainedBlocks key iv cipherText count ++
            [xor16 ((firstBlocks cipherText count).getLastD iv)
              (sm4Decrypt key (blockAt 16 cipherText count))] := by
        rw [unchainedBlocks, firstBlocks_succ, cbcDecrypt_concat]
        rfl
      have here : (Vector.ofFn fun i : Fin 16 => cipherText.getD (count * 16 + i.val) 0) =
          blockAt 16 cipherText count := by
        rw [Nat.mul_comm]
        rfl
      have swapped : ∀ output chained : Bytes 16,
          Vector.zipWith (fun text chained => chained ^^^ text) output chained =
            xor16 chained output := by
        intro output chained
        apply Vector.ext
        intro position inside
        simp [xor16]
      have few : min (plainTextLen.toNat - 16 * count) 16 ≤ 16 := Nat.min_le_right _ _
      have clipped : ∀ block : Bytes 16,
          block.toList.take (min (plainTextLen.toNat - 16 * count) 16) =
            block.toList.take (plainTextLen.toNat - 16 * count) := by
        intro block
        rw [List.take_eq_take_iff, Vector.length_toList]
        omega
      rw [forRange_succ, induction, Nat.zero_add, cbcDecryptRound]
      simp only [here, stop_sub_start]
      rw [chained_eq (fun text chained => chained ^^^ text) iv stale _ _
        (firstBlocks_length cipherText count), swapped, copyPlaintext_eq _ _ few, clipped, next,
        joinBlocks_concat, List.take_append, joinBlocks_length, unchainedBlocks_length,
        firstBlocks_succ, List.getLastD_concat]

theorem sm4CbcDecrypt_eq (aligned : cipherText.length % 16 = 0) (plainTextLen : Int) :
    sm4CbcDecrypt key iv stale cipherText plainText plainTextLen =
      (((joinBlocks (unchainedBlocks key iv cipherText (cipherText.length / 16))).take
          plainTextLen.toNat).length,
        plainText.copy 0 ((joinBlocks (unchainedBlocks key iv cipherText
          (cipherText.length / 16))).take plainTextLen.toNat)) := by
  rw [sm4CbcDecrypt, if_neg (not_not.mpr aligned)]
  simp only [forRange_cbcDecryptRound]

end Decryption

/-! ## Round trip -/

def cbcCiphertext (key iv : Bytes 16) (plainText : List UInt8) : List UInt8 :=
  joinBlocks (cbcEncrypt xor16 (sm4Encrypt key) iv (wholeBlocks 16 (padZeros plainText)))

theorem padZeros_length (plainText : List UInt8) :
    (padZeros plainText).length = 16 * ((plainText.length + 15) / 16) := by
  rw [padZeros, List.length_append, List.length_replicate]
  omega

theorem wholeBlocks_padZeros (plainText : List UInt8) :
    wholeBlocks 16 (padZeros plainText) =
      firstBlocks (padZeros plainText) ((plainText.length + 15) / 16) := by
  rw [wholeBlocks, padZeros_length, Nat.mul_div_cancel_left _ (by decide), firstBlocks]

theorem cbcCiphertext_eq (key iv : Bytes 16) (plainText : List UInt8) :
    cbcCiphertext key iv plainText =
      joinBlocks (chainedBlocks key iv plainText ((plainText.length + 15) / 16)) := by
  rw [cbcCiphertext, wholeBlocks_padZeros, chainedBlocks]

theorem cbcCiphertext_length (key iv : Bytes 16) (plainText : List UInt8) :
    (cbcCiphertext key iv plainText).length = 16 * ((plainText.length + 15) / 16) := by
  rw [cbcCiphertext_eq, joinBlocks_length, chainedBlocks_length]

theorem joinBlocks_unchainedBlocks (key iv : Bytes 16) (plainText : List UInt8) :
    joinBlocks (unchainedBlocks key iv (cbcCiphertext key iv plainText)
        ((cbcCiphertext key iv plainText).length / 16)) = padZeros plainText := by
  have blocks : firstBlocks (cbcCiphertext key iv plainText)
      ((cbcCiphertext key iv plainText).length / 16) =
        cbcEncrypt xor16 (sm4Encrypt key) iv (wholeBlocks 16 (padZeros plainText)) :=
    wholeBlocks_flatMap (by decide) _
  have cancels : ∀ block previous : Bytes 16, xor16 previous (xor16 block previous) = block := by
    intro block previous
    rw [xor16_comm, xor16_xor16]
  rw [unchainedBlocks, blocks, cbcDecrypt_cbcEncrypt (sm4Decrypt_sm4Encrypt key) cancels]
  exact flatMap_wholeBlocks (by rw [padZeros_length, Nat.mul_mod_right])

/-- For every text and every capacity: encryption writes the padded text's ciphertext or
nothing, and decryption of it gives back as much of the padded text as there is room for. -/
theorem sm4Cbc_roundTrip (key iv staleEncrypt staleDecrypt : Bytes 16) (plainText : List UInt8)
    (bound : plainText.length < 2 ^ 31 - 16) :
    (cbcCiphertext key iv plainText).length = 16 * ((plainText.length + 15) / 16) ∧
    (∀ (cipherText : Buffer) (cipherTextLen : Int),
      sm4CbcEncrypt key iv staleEncrypt plainText cipherText cipherTextLen =
        if cipherTextLen < (16 * ((plainText.length + 15) / 16) : Nat) then some (0, cipherText)
        else
          some (16 * ((plainText.length + 15) / 16),
            cipherText.copy 0 (cbcCiphertext key iv plainText))) ∧
    (∀ (text : Buffer) (plainTextLen : Int), 0 ≤ plainTextLen →
      sm4CbcDecrypt key iv staleDecrypt (cbcCiphertext key iv plainText) text plainTextLen =
        (min plainTextLen.toNat (16 * ((plainText.length + 15) / 16)),
          text.copy 0 ((padZeros plainText).take
            (min plainTextLen.toNat (16 * ((plainText.length + 15) / 16)))))) := by
  refine ⟨cbcCiphertext_length key iv plainText, ?_, ?_⟩
  · intro cipherText cipherTextLen
    rw [sm4CbcEncrypt_eq key iv staleEncrypt plainText cipherText (by omega), cbcCiphertext_eq,
      Nat.mul_comm 16]
  · intro text plainTextLen _
    have aligned : (cbcCiphertext key iv plainText).length % 16 = 0 := by
      rw [cbcCiphertext_length, Nat.mul_mod_right]
    rw [sm4CbcDecrypt_eq key iv staleDecrypt _ text aligned, joinBlocks_unchainedBlocks,
      List.length_take, padZeros_length]
    have whole : (padZeros plainText).take plainTextLen.toNat =
        (padZeros plainText).take
          (min plainTextLen.toNat (16 * ((plainText.length + 15) / 16))) := by
      rw [List.take_eq_take_iff, padZeros_length]
      omega
    rw [whole]

theorem sm4Cbc_roundTrip_byte :
    sm4CbcDecrypt zeroBlock zeroBlock zeroBlock (cbcCiphertext zeroBlock zeroBlock [7])
        ⟨fun _ => 0⟩ 5 =
      (5, Buffer.copy ⟨fun _ => 0⟩ 0 [7, 0, 0, 0, 0]) :=
  (sm4Cbc_roundTrip zeroBlock zeroBlock zeroBlock zeroBlock [7] (by decide)).2.2 _ 5 (by decide)

end Penglai.Gm
