import Penglai.Foundation.Bytes
import Penglai.Foundation.Feistel
import Penglai.Foundation.Loop

namespace Penglai.Gm

/-! # The SM4 block cipher (`gm/src/SM4.c`) -/

/-! ## Tables -/

def sm4Ck : Vector UInt32 32 :=
  #v[0x00070e15, 0x1c232a31, 0x383f464d, 0x545b6269, 0x70777e85, 0x8c939aa1,
    0xa8afb6bd, 0xc4cbd2d9, 0xe0e7eef5, 0xfc030a11, 0x181f262d, 0x343b4249,
    0x50575e65, 0x6c737a81, 0x888f969d, 0xa4abb2b9, 0xc0c7ced5, 0xdce3eaf1,
    0xf8ff060d, 0x141b2229, 0x30373e45, 0x4c535a61, 0x686f767d, 0x848b9299,
    0xa0a7aeb5, 0xbcc3cad1, 0xd8dfe6ed, 0xf4fb0209, 0x10171e25, 0x2c333a41,
    0x484f565d, 0x646b7279]

set_option maxRecDepth 4000 in
def sm4Sbox : Vector UInt8 256 :=
  #v[0xd6, 0x90, 0xe9, 0xfe, 0xcc, 0xe1, 0x3d, 0xb7, 0x16, 0xb6, 0x14, 0xc2, 0x28, 0xfb, 0x2c, 0x05,
    0x2b, 0x67, 0x9a, 0x76, 0x2a, 0xbe, 0x04, 0xc3, 0xaa, 0x44, 0x13, 0x26, 0x49, 0x86, 0x06, 0x99,
    0x9c, 0x42, 0x50, 0xf4, 0x91, 0xef, 0x98, 0x7a, 0x33, 0x54, 0x0b, 0x43, 0xed, 0xcf, 0xac, 0x62,
    0xe4, 0xb3, 0x1c, 0xa9, 0xc9, 0x08, 0xe8, 0x95, 0x80, 0xdf, 0x94, 0xfa, 0x75, 0x8f, 0x3f, 0xa6,
    0x47, 0x07, 0xa7, 0xfc, 0xf3, 0x73, 0x17, 0xba, 0x83, 0x59, 0x3c, 0x19, 0xe6, 0x85, 0x4f, 0xa8,
    0x68, 0x6b, 0x81, 0xb2, 0x71, 0x64, 0xda, 0x8b, 0xf8, 0xeb, 0x0f, 0x4b, 0x70, 0x56, 0x9d, 0x35,
    0x1e, 0x24, 0x0e, 0x5e, 0x63, 0x58, 0xd1, 0xa2, 0x25, 0x22, 0x7c, 0x3b, 0x01, 0x21, 0x78, 0x87,
    0xd4, 0x00, 0x46, 0x57, 0x9f, 0xd3, 0x27, 0x52, 0x4c, 0x36, 0x02, 0xe7, 0xa0, 0xc4, 0xc8, 0x9e,
    0xea, 0xbf, 0x8a, 0xd2, 0x40, 0xc7, 0x38, 0xb5, 0xa3, 0xf7, 0xf2, 0xce, 0xf9, 0x61, 0x15, 0xa1,
    0xe0, 0xae, 0x5d, 0xa4, 0x9b, 0x34, 0x1a, 0x55, 0xad, 0x93, 0x32, 0x30, 0xf5, 0x8c, 0xb1, 0xe3,
    0x1d, 0xf6, 0xe2, 0x2e, 0x82, 0x66, 0xca, 0x60, 0xc0, 0x29, 0x23, 0xab, 0x0d, 0x53, 0x4e, 0x6f,
    0xd5, 0xdb, 0x37, 0x45, 0xde, 0xfd, 0x8e, 0x2f, 0x03, 0xff, 0x6a, 0x72, 0x6d, 0x6c, 0x5b, 0x51,
    0x8d, 0x1b, 0xaf, 0x92, 0xbb, 0xdd, 0xbc, 0x7f, 0x11, 0xd9, 0x5c, 0x41, 0x1f, 0x10, 0x5a, 0xd8,
    0x0a, 0xc1, 0x31, 0x88, 0xa5, 0xcd, 0x7b, 0xbd, 0x2d, 0x74, 0xd0, 0x12, 0xb8, 0xe5, 0xb4, 0xb0,
    0x89, 0x69, 0x97, 0x4a, 0x0c, 0x96, 0x77, 0x7e, 0x65, 0xb9, 0xf1, 0x09, 0xc5, 0x6e, 0xc6, 0x84,
    0x18, 0xf0, 0x7d, 0xec, 0x3a, 0xdc, 0x4d, 0x20, 0x79, 0xee, 0x5f, 0x3e, 0xd7, 0xcb, 0x39, 0x48]

def sm4Fk : Vector UInt32 4 := #v[0xA3B1BAC6, 0x56AA3350, 0x677D9197, 0xB27022DC]

/-! ## The cipher -/

def sm4Rotl32 (buf n : UInt32) : UInt32 := (buf <<< n) ||| (buf >>> (32 - n))

def sm4Tau (tmp : UInt32) : UInt32 :=
  beWord sm4Sbox[((tmp >>> 24) &&& 0xFF).toNat]! sm4Sbox[((tmp >>> 16) &&& 0xFF).toNat]!
    sm4Sbox[((tmp >>> 8) &&& 0xFF).toNat]! sm4Sbox[(tmp &&& 0xFF).toNat]!

def loadBlock (block : Bytes 16) : Quad UInt32 :=
  ⟨beWord block[0] block[1] block[2] block[3], beWord block[4] block[5] block[6] block[7],
    beWord block[8] block[9] block[10] block[11],
    beWord block[12] block[13] block[14] block[15]⟩

def storeBlock (words : Quad UInt32) : Bytes 16 :=
  #v[lowByte (words.x0 >>> 24), lowByte (words.x0 >>> 16), lowByte (words.x0 >>> 8),
    lowByte words.x0,
    lowByte (words.x1 >>> 24), lowByte (words.x1 >>> 16), lowByte (words.x1 >>> 8),
    lowByte words.x1,
    lowByte (words.x2 >>> 24), lowByte (words.x2 >>> 16), lowByte (words.x2 >>> 8),
    lowByte words.x2,
    lowByte (words.x3 >>> 24), lowByte (words.x3 >>> 16), lowByte (words.x3 >>> 8),
    lowByte words.x3]

def sm4KeySchedule (mk : Bytes 16) : Vector UInt32 32 :=
  let words := loadBlock mk
  let k : Vector UInt32 36 := Vector.replicate 36 0
  let k := (((k.set 0 (sm4Fk[0] ^^^ words.x0)).set 1 (sm4Fk[1] ^^^ words.x1)).set 2
    (sm4Fk[2] ^^^ words.x2)).set 3 (sm4Fk[3] ^^^ words.x3)
  (forRange 0 32
    (fun i (k, rk) =>
      let tmp := k[i + 1]! ^^^ k[i + 2]! ^^^ k[i + 3]! ^^^ sm4Ck[i]!
      let buf := sm4Tau tmp
      let k := k.set! (i + 4) (k[i]! ^^^ (buf ^^^ sm4Rotl32 buf 13 ^^^ sm4Rotl32 buf 23))
      (k, rk.set! i k[i + 4]!))
    (k, (Vector.replicate 32 0 : Vector UInt32 32))).2

def sm4Mix (rk x1 x2 x3 : UInt32) : UInt32 :=
  let tmp := x1 ^^^ x2 ^^^ x3 ^^^ rk
  let buf := sm4Tau tmp
  buf ^^^ sm4Rotl32 buf 2 ^^^ sm4Rotl32 buf 10 ^^^ sm4Rotl32 buf 18 ^^^ sm4Rotl32 buf 24

def sm4Round (roundKey : Nat → UInt32) (i : Nat) (x : Vector UInt32 36) : Vector UInt32 36 :=
  x.set! (i + 4) (x[i]! ^^^ sm4Mix (roundKey i) x[i + 1]! x[i + 2]! x[i + 3]!)

def sm4Load (input : Bytes 16) : Vector UInt32 36 :=
  let words := loadBlock input
  let x : Vector UInt32 36 := Vector.replicate 36 0
  (((x.set 0 words.x0).set 1 words.x1).set 2 words.x2).set 3 words.x3

/-- The common body of `SM4_Encrypt` and `SM4_Decrypt`, which differ in the
round key of round `i` only. -/
def sm4Crypt (roundKey : Nat → UInt32) (input : Bytes 16) : Bytes 16 :=
  let x := forRange 0 32 (sm4Round roundKey) (sm4Load input)
  storeBlock ⟨x[35], x[34], x[33], x[32]⟩

def sm4Encrypt (mk plainText : Bytes 16) : Bytes 16 :=
  let rk := sm4KeySchedule mk
  sm4Crypt (fun i => rk[i]!) plainText

def sm4Decrypt (mk cipherText : Bytes 16) : Bytes 16 :=
  let rk := sm4KeySchedule mk
  sm4Crypt (fun i => rk[31 - i]!) cipherText

/-! ## Decryption -/

@[simp] theorem loadBlock_storeBlock (words : Quad UInt32) :
    loadBlock (storeBlock words) = words := by
  simp [loadBlock, storeBlock]

@[simp] theorem storeBlock_loadBlock (block : Bytes 16) :
    storeBlock (loadBlock block) = block := by
  apply Vector.ext
  intro position inside
  interval_cases position <;> simp [storeBlock, loadBlock]

private def window (x : Vector UInt32 36) (done : Nat) : Quad UInt32 :=
  ⟨x[done]!, x[done + 1]!, x[done + 2]!, x[done + 3]!⟩

private theorem window_sm4Round (roundKey : Nat → UInt32) {done : Nat} (inside : done < 32)
    (x : Vector UInt32 36) :
    window (sm4Round roundKey done x) (done + 1) =
      feistelRound (· ^^^ ·) sm4Mix (window x done) (roundKey done) := by
  have inArray : done + 4 < 36 := by omega
  simp only [window, sm4Round, feistelRound, Vector.set!_eq_setIfInBounds]
  grind

/-- The array the code fills holds the run of the network in a sliding window. -/
theorem sm4Crypt_eq_feistelRun (roundKey : Nat → UInt32) (input : Bytes 16) :
    sm4Crypt roundKey input =
      storeBlock (feistelRun (· ^^^ ·) sm4Mix ((List.range 32).map roundKey)
        (loadBlock input)).reverse := by
  have slides : ∀ count ≤ 32,
      window (forRange 0 count (sm4Round roundKey) (sm4Load input)) count =
        feistelRun (· ^^^ ·) sm4Mix ((List.range count).map roundKey) (loadBlock input) := by
    intro count bound
    refine forRange_invariant (fun done x => window x done =
      feistelRun (· ^^^ ·) sm4Mix ((List.range done).map roundKey) (loadBlock input))
      (by simp [window, sm4Load, feistelRun]) count ?_
    intro done inside x before
    rw [List.range_succ, List.map_append, List.map_singleton, feistelRun_concat, ← before,
      Nat.zero_add, window_sm4Round roundKey (by omega)]
  have atEnd : ∀ x : Vector UInt32 36,
      (⟨x[35], x[34], x[33], x[32]⟩ : Quad UInt32) = (window x 32).reverse := fun _ => rfl
  rw [sm4Crypt, atEnd, slides 32 le_rfl]

theorem sm4Crypt_reverse (roundKey : Nat → UInt32) (block : Bytes 16) :
    sm4Crypt (fun i => roundKey (31 - i)) (sm4Crypt roundKey block) = block := by
  have reversed : (List.range 32).map (fun i => roundKey (31 - i)) =
      ((List.range 32).map roundKey).reverse := rfl
  have cancels : ∀ left right : UInt32, left ^^^ right ^^^ right = left := by
    intro left right
    rw [UInt32.xor_assoc, UInt32.xor_self, UInt32.xor_zero]
  have symmetric : ∀ key a b c : UInt32, sm4Mix key a b c = sm4Mix key c b a := by
    intro key a b c
    rw [sm4Mix, sm4Mix, UInt32.xor_comm a b, UInt32.xor_comm c b, UInt32.xor_assoc b a c,
      UInt32.xor_assoc b c a, UInt32.xor_comm a c]
  rw [sm4Crypt_eq_feistelRun, sm4Crypt_eq_feistelRun, loadBlock_storeBlock, reversed,
    feistelRun_reverse cancels symmetric, Quad.reverse_reverse, storeBlock_loadBlock]

@[simp] theorem sm4Decrypt_sm4Encrypt (mk block : Bytes 16) :
    sm4Decrypt mk (sm4Encrypt mk block) = block :=
  sm4Crypt_reverse (fun i => (sm4KeySchedule mk)[i]!) block

@[simp] theorem sm4Encrypt_sm4Decrypt (mk block : Bytes 16) :
    sm4Encrypt mk (sm4Decrypt mk block) = block := by
  have backAndForth := sm4Crypt_reverse (fun i => (sm4KeySchedule mk)[31 - i]!) block
  have sameKeys : (List.range 32).map (fun i => (sm4KeySchedule mk)[31 - (31 - i)]!) =
      (List.range 32).map (fun i => (sm4KeySchedule mk)[i]!) := rfl
  rw [sm4Crypt_eq_feistelRun, sameKeys, ← sm4Crypt_eq_feistelRun] at backAndForth
  exact backAndForth

/-! ## The self-check -/

def sm4SelfCheckOn (key plain cipher : Bytes 16) : Int :=
  let enOutput := sm4Encrypt key plain
  let deOutput := sm4Decrypt key cipher
  if ∃ i < 16, enOutput[i]! ≠ cipher[i]! ∨ deOutput[i]! ≠ plain[i]! then 1 else 0

def sm4StandardKey : Bytes 16 :=
  #v[0x01, 0x23, 0x45, 0x67, 0x89, 0xab, 0xcd, 0xef, 0xfe, 0xdc, 0xba, 0x98, 0x76, 0x54, 0x32, 0x10]

def sm4StandardPlain : Bytes 16 :=
  #v[0x01, 0x23, 0x45, 0x67, 0x89, 0xab, 0xcd, 0xef, 0xfe, 0xdc, 0xba, 0x98, 0x76, 0x54, 0x32, 0x10]

def sm4StandardCipher : Bytes 16 :=
  #v[0x68, 0x1e, 0xdf, 0x34, 0xd2, 0x06, 0x96, 0x5e, 0x86, 0xb3, 0xe9, 0x4f, 0x53, 0x6e, 0x42, 0x46]

def sm4SelfCheck : Int := sm4SelfCheckOn sm4StandardKey sm4StandardPlain sm4StandardCipher

/-- The second comparison never decides: it fails only where the first one does. -/
theorem sm4SelfCheckOn_eq_zero_iff (key plain cipher : Bytes 16) :
    sm4SelfCheckOn key plain cipher = 0 ↔ sm4Encrypt key plain = cipher := by
  rw [sm4SelfCheckOn]
  constructor
  · intro passed
    apply Vector.ext
    intro i inside
    by_contra different
    rw [if_pos ⟨i, inside, .inl (by simpa [inside] using different)⟩] at passed
    exact absurd passed (by decide)
  · intro same
    subst same
    simp

theorem sm4SelfCheck_eq_zero : sm4SelfCheck = 0 := by
  apply (sm4SelfCheckOn_eq_zero_iff ..).mpr
  decide +kernel

end Penglai.Gm
