import Penglai.Foundation.Memory
import Penglai.Gm.Sm4Enc

namespace Penglai.Gm

/-! # The SM4 calls on memory (`gm/src/SM4.c`)

The arguments are pointers, and the callers in the OCB code pass one pointer for
input and output. Round keys and the words `X` are local arrays, so all that is
read of memory has been read before the first byte is written. -/

def sm4LoadAt (memory : Memory) (input : UInt64) : Vector UInt32 36 :=
  forRange 0 4
    (fun j x => x.set! j (beWord (memory (input + UInt64.ofNat (j * 4)))
      (memory (input + UInt64.ofNat (j * 4 + 1))) (memory (input + UInt64.ofNat (j * 4 + 2)))
      (memory (input + UInt64.ofNat (j * 4 + 3)))))
    (Vector.replicate 36 0)

def sm4StoreWord (x : Vector UInt32 36) (output : UInt64) (j : Nat) (memory : Memory) : Memory :=
  let memory := memory.store (output + UInt64.ofNat (4 * j)) (lowByte (x[35 - j]! >>> 24))
  let memory := memory.store (output + UInt64.ofNat (4 * j + 1)) (lowByte (x[35 - j]! >>> 16))
  let memory := memory.store (output + UInt64.ofNat (4 * j + 2)) (lowByte (x[35 - j]! >>> 8))
  memory.store (output + UInt64.ofNat (4 * j + 3)) (lowByte x[35 - j]!)

def sm4CryptAt (roundKey : Nat → UInt32) (input output : UInt64) (memory : Memory) : Memory :=
  let x := forRange 0 32 (sm4Round roundKey) (sm4LoadAt memory input)
  forRange 0 4 (sm4StoreWord x output) memory

def sm4EncryptAt (mk plainText cipherText : UInt64) (memory : Memory) : Memory :=
  let rk := sm4KeySchedule (memory.block 16 mk)
  sm4CryptAt (fun i => rk[i]!) plainText cipherText memory

def sm4DecryptAt (mk cipherText plainText : UInt64) (memory : Memory) : Memory :=
  let rk := sm4KeySchedule (memory.block 16 mk)
  sm4CryptAt (fun i => rk[31 - i]!) cipherText plainText memory

/-! ## One write each -/

theorem sm4LoadAt_eq_sm4Load (memory : Memory) (input : UInt64) :
    sm4LoadAt memory input = sm4Load (memory.block 16 input) := by
  simp only [sm4Load, loadBlock, Memory.getElem_block]
  rfl

private def storedBytes (x : Vector UInt32 36) (done : Nat) : List UInt8 :=
  (List.range done).flatMap fun j => beBytes 4 x[35 - j]!.toNat

private theorem storedBytes_succ (x : Vector UInt32 36) (done : Nat) :
    storedBytes x (done + 1) = storedBytes x done ++ beBytes 4 x[35 - done]!.toNat := by
  simp [storedBytes, List.range_succ]

private theorem storedBytes_length (x : Vector UInt32 36) (done : Nat) :
    (storedBytes x done).length = 4 * done := by
  induction done with
  | zero => rfl
  | succ done induction =>
      rw [storedBytes_succ, List.length_append, induction, beBytes_length]
      ring

private theorem sm4StoreWord_write (x : Vector UInt32 36) (output : UInt64) {done : Nat}
    (inside : done < 4) (memory : Memory) :
    sm4StoreWord x output done (memory.write output (storedBytes x done)) =
      memory.write output (storedBytes x (done + 1)) := by
  have length := storedBytes_length x done
  rw [sm4StoreWord, Memory.store_write memory output length (by omega),
    Memory.store_write memory output (by simp [length]) (by omega),
    Memory.store_write memory output (by simp [length]) (by omega),
    Memory.store_write memory output (by simp [length]) (by omega), storedBytes_succ,
    beBytes_word]
  simp

theorem sm4CryptAt_eq_write (roundKey : Nat → UInt32) (input output : UInt64)
    (memory : Memory) :
    sm4CryptAt roundKey input output memory =
      memory.write output (sm4Crypt roundKey (memory.block 16 input)).toList := by
  have stored : ∀ x : Vector UInt32 36,
      forRange 0 4 (sm4StoreWord x output) memory = memory.write output (storedBytes x 4) := by
    intro x
    apply forRange_invariant
      (fun done written => written = memory.write output (storedBytes x done))
    · exact (memory.write_nil output).symm
    · intro done inside written before
      rw [before, Nat.zero_add, sm4StoreWord_write x output inside]
  have packed : ∀ x : Vector UInt32 36,
      storedBytes x 4 = (storeBlock ⟨x[35], x[34], x[33], x[32]⟩).toList := by
    intro x
    simp [storedBytes, List.range_succ, beBytes_word, storeBlock]
  rw [sm4CryptAt, stored, packed, sm4LoadAt_eq_sm4Load, sm4Crypt]

theorem writes_sm4EncryptAt : Memory.Writes sm4EncryptAt sm4Encrypt :=
  fun _ _ _ _ => sm4CryptAt_eq_write ..

theorem writes_sm4DecryptAt : Memory.Writes sm4DecryptAt sm4Decrypt :=
  fun _ _ _ _ => sm4CryptAt_eq_write ..

/-! ## Each direction undoes the other -/

/-- As functions of key and block, and as calls on memory: whichever of the arrays
`input`, `output` and `back` coincide or overlap, a second call that is given the
same key and the first call's output leaves the block in `back`. -/
theorem sm4_inverse (key block : Bytes 16) :
    (sm4Decrypt key (sm4Encrypt key block) = block ∧
      sm4Encrypt key (sm4Decrypt key block) = block) ∧
    ∀ (memory : Memory) (mk mk' input output back : UInt64),
      memory.block 16 mk = key → memory.block 16 input = block →
      ((sm4EncryptAt mk input output memory).block 16 mk' = key →
        (sm4DecryptAt mk' output back
          (sm4EncryptAt mk input output memory)).block 16 back = block) ∧
      ((sm4DecryptAt mk input output memory).block 16 mk' = key →
        (sm4EncryptAt mk' output back
          (sm4DecryptAt mk input output memory)).block 16 back = block) := by
  constructor
  · exact ⟨sm4Decrypt_sm4Encrypt key block, sm4Encrypt_sm4Decrypt key block⟩
  · intro memory mk mk' input output back atKey atInput
    have written : ∀ after : Memory,
        (after.write back (memory.block 16 input).toList).block 16 back = block := by
      intro after
      rw [Memory.block_write (by decide), atInput]
    constructor
    · intro sameKey
      rw [writes_sm4EncryptAt.undone writes_sm4DecryptAt (by decide) sm4Decrypt_sm4Encrypt
        (sameKey.trans atKey.symm), written]
    · intro sameKey
      rw [writes_sm4DecryptAt.undone writes_sm4EncryptAt (by decide) sm4Encrypt_sm4Decrypt
        (sameKey.trans atKey.symm), written]

def standardMemory : Memory :=
  (Memory.write (fun _ => 0) 0x1000 sm4StandardKey.toList).write 0x2000 sm4StandardPlain.toList

private theorem standardMemory_apart : ∀ location,
    Memory.InRange location 0x1000 16 → ¬Memory.InRange location 0x2000 16 :=
  Memory.apart_of_distance (by decide) (by decide)

theorem block_key_standardMemory : standardMemory.block 16 0x1000 = sm4StandardKey := by
  rw [standardMemory, Memory.block_write_of_apart (by decide) standardMemory_apart,
    Memory.block_write (by decide)]

theorem block_plain_standardMemory : standardMemory.block 16 0x2000 = sm4StandardPlain := by
  rw [standardMemory, Memory.block_write (by decide)]

theorem sm4_inverse_standard :
    (sm4DecryptAt 0x1000 0x2000 0x2000
      (sm4EncryptAt 0x1000 0x2000 0x2000 standardMemory)).block 16 0x2000 = sm4StandardPlain ∧
    (sm4EncryptAt 0x1000 0x2000 0x2000
      (sm4DecryptAt 0x1000 0x2000 0x2000 standardMemory)).block 16 0x2000 = sm4StandardPlain := by
  have both := (sm4_inverse sm4StandardKey sm4StandardPlain).2 standardMemory
    0x1000 0x1000 0x2000 0x2000 0x2000 block_key_standardMemory block_plain_standardMemory
  constructor
  · apply both.1
    rw [writes_sm4EncryptAt, Memory.block_write_of_apart (by decide) standardMemory_apart,
      block_key_standardMemory]
  · apply both.2
    rw [writes_sm4DecryptAt, Memory.block_write_of_apart (by decide) standardMemory_apart,
      block_key_standardMemory]

theorem sm4At_restores {mk buffer : UInt64}
    (apart : ∀ location, Memory.InRange location mk 16 → ¬Memory.InRange location buffer 16)
    (memory : Memory) :
    sm4DecryptAt mk buffer buffer (sm4EncryptAt mk buffer buffer memory) = memory ∧
      sm4EncryptAt mk buffer buffer (sm4DecryptAt mk buffer buffer memory) = memory := by
  constructor
  · exact writes_sm4EncryptAt.undone_inPlace writes_sm4DecryptAt (by decide) (by decide)
      sm4Decrypt_sm4Encrypt apart
  · exact writes_sm4DecryptAt.undone_inPlace writes_sm4EncryptAt (by decide) (by decide)
      sm4Encrypt_sm4Decrypt apart

/-! ## In the OCB code -/

def xor16At (a : UInt64) (b : Bytes 16) (memory : Memory) : Memory :=
  forRange 0 16
    (fun i memory => memory.store (a + UInt64.ofNat i) (memory (a + UInt64.ofNat i) ^^^ b[i]!))
    memory

def ocbBlockAt (call : UInt64 → UInt64 → UInt64 → Memory → Memory) (key block : UInt64)
    (offset : Bytes 16) (memory : Memory) : Memory :=
  let memory := xor16At block offset memory
  let memory := call key block block memory
  xor16At block offset memory

theorem xor16At_eq_write (a : UInt64) (b : Bytes 16) (memory : Memory) :
    xor16At a b memory = memory.write a (xor16 (memory.block 16 a) b).toList := by
  rw [xor16At, Memory.forRange_store memory a (fun i byte => byte ^^^ b[i]!) (by decide)]
  congr 1
  apply List.ext_getElem
  · simp
  · intro i inside _
    have inBlock : i < 16 := by simpa using inside
    simp [xor16, Memory.getElem_block, inBlock]

section Block

variable {forward backward : UInt64 → UInt64 → UInt64 → Memory → Memory}
  {cipher decipher : Bytes 16 → Bytes 16 → Bytes 16} {key block : UInt64}

theorem ocbBlockAt_eq_write (writes : Memory.Writes forward cipher)
    (apart : ∀ location, Memory.InRange location key 16 → ¬Memory.InRange location block 16)
    (offset : Bytes 16) (memory : Memory) :
    ocbBlockAt forward key block offset memory =
      memory.write block (xor16 (cipher (memory.block 16 key)
        (xor16 (memory.block 16 block) offset)) offset).toList := by
  rw [ocbBlockAt, xor16At_eq_write, writes, xor16At_eq_write,
    Memory.block_write_of_apart (by decide) apart,
    Memory.block_write (by decide), Memory.write_write memory block (by simp),
    Memory.block_write (by decide), Memory.write_write memory block (by simp)]

theorem ocbBlockAt_undone (forwardWrites : Memory.Writes forward cipher)
    (backwardWrites : Memory.Writes backward decipher)
    (inverts : ∀ key block, decipher key (cipher key block) = block)
    (apart : ∀ location, Memory.InRange location key 16 → ¬Memory.InRange location block 16)
    (offset : Bytes 16) (memory : Memory) :
    ocbBlockAt backward key block offset (ocbBlockAt forward key block offset memory) =
      memory := by
  rw [ocbBlockAt_eq_write backwardWrites apart, ocbBlockAt_eq_write forwardWrites apart,
    Memory.block_write_of_apart (by decide) apart, Memory.block_write (by decide),
    xor16_xor16, inverts, xor16_xor16, Memory.write_write memory block (by simp), Memory.write_block]

theorem get_ocbBlock_buffer (writes : Memory.Writes forward cipher) {out : UInt64}
    {position : Nat} (fits : position + 16 ≤ 2 ^ 64)
    (apart : ∀ location, Memory.InRange location key 16 →
      ¬Memory.InRange location (out + UInt64.ofNat position) 16)
    (offset : Bytes 16) (memory : Memory) {index : Nat} (inside : index < 2 ^ 64) :
    (ocbBlock (cipher (memory.block 16 key)) offset (memory.buffer out) position).get index =
      ((ocbBlockAt forward key (out + UInt64.ofNat position) offset memory).buffer out).get
        index := by
  rw [ocbBlock_eq, ocbBlockAt_eq_write writes apart,
    Memory.get_buffer_write memory out fits inside (by decide), Memory.block_buffer]

end Block

/-- The block loops of `SM4_OCB_Encrypt` and `SM4_OCB_Decrypt` undo each other step by step,
on memory. -/
theorem sm4_ocbBlockAt_inverse {key block : UInt64}
    (apart : ∀ location, Memory.InRange location key 16 → ¬Memory.InRange location block 16)
    (offset : Bytes 16) (memory : Memory) :
    ocbBlockAt sm4DecryptAt key block offset
        (ocbBlockAt sm4EncryptAt key block offset memory) = memory ∧
      ocbBlockAt sm4EncryptAt key block offset
        (ocbBlockAt sm4DecryptAt key block offset memory) = memory := by
  constructor
  · exact ocbBlockAt_undone writes_sm4EncryptAt writes_sm4DecryptAt sm4Decrypt_sm4Encrypt apart
      offset memory
  · exact ocbBlockAt_undone writes_sm4DecryptAt writes_sm4EncryptAt sm4Encrypt_sm4Decrypt apart
      offset memory

end Penglai.Gm
