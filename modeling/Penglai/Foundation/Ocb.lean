import Mathlib.NumberTheory.Padics.PadicVal.Basic
import Penglai.Foundation.BlockAbsorb
import Penglai.Foundation.Bytes

namespace Penglai.Ocb

/-! # OCB3 authenticated encryption

The mode over any 128-bit block permutation with a 128-bit tag: offsets walk a
Gray code through the doublings of `E 0`, every whole block is masked before and
after the permutation, and the tag is taken from the sum of the plaintext. -/

abbrev Block := BitVec 128

def ofBytes (bytes : Bytes 16) : Block := BitVec.ofNat 128 bytes.toNat

def toBytes (block : Block) : Bytes 16 := Bytes.ofNat 16 block.toNat

@[simp] theorem ofBytes_toBytes (block : Block) : ofBytes (toBytes block) = block := by
  have bound : block.toNat < 256 ^ 16 := by
    have small := block.isLt
    norm_num at small ⊢
    exact small
  apply BitVec.eq_of_toNat_eq
  rw [ofBytes, toBytes, Bytes.toNat_ofNat bound, BitVec.toNat_ofNat]
  exact Nat.mod_eq_of_lt block.isLt

@[simp] theorem toBytes_ofBytes (bytes : Bytes 16) : toBytes (ofBytes bytes) = bytes := by
  have bound : bytes.toNat < 2 ^ 128 := by
    have small := bytes.toNat_lt
    norm_num at small ⊢
    exact small
  rw [toBytes, ofBytes, BitVec.toNat_ofNat, Nat.mod_eq_of_lt bound, Bytes.ofNat_toNat]

/-! ## Offsets -/

/-- Multiplication by `x` modulo `x^128 + x^7 + x^2 + x + 1`. -/
def double (block : Block) : Block :=
  if block.msb then (block <<< 1) ^^^ 135#128 else block <<< 1

def ntz (number : Nat) : Nat := padicValNat 2 number

section Mode

variable (E : Block → Block)

def lStar : Block := E 0

def lDollar : Block := double (lStar E)

def lAt : Nat → Block
  | 0 => double (lDollar E)
  | index + 1 => double (lAt index)

def offsetAt (start : Block) : Nat → Block
  | 0 => start
  | count + 1 => offsetAt start count ^^^ lAt E (ntz (count + 1))

/-- `0* ‖ 1 ‖ N` in 128 bits, the tag length field being zero for 128-bit tags. -/
def nonceBlock (nonce : List UInt8) : Block :=
  BitVec.ofNat 128 (2 ^ (8 * nonce.length) + beNat nonce)

/-- `Ktop ‖ (Ktop[1..64] ⊕ Ktop[9..72])`. -/
def stretch (ktop : Block) : BitVec 192 :=
  ktop ++ (ktop.extractLsb' 64 64 ^^^ ktop.extractLsb' 56 64)

/-- The 128 bits of the stretch from bit `bottom` on. -/
def stretchWindow (ktop : Block) (bottom : Nat) : Block :=
  (stretch ktop <<< bottom).extractLsb' 64 128

def initialOffset (nonce : List UInt8) : Block :=
  stretchWindow (E (nonceBlock nonce &&& ~~~63#128)) ((nonceBlock nonce).toNat % 64)

/-! ## Strings -/

def blocks (text : List UInt8) : Nat := text.length / 16

def blockOf (text : List UInt8) (index : Nat) : Block := ofBytes (blockAt 16 text index)

def rest (text : List UInt8) : List UInt8 := text.drop (16 * blocks text)

def padded (text : List UInt8) : Block :=
  ofBytes (Vector.ofFn fun position => (text ++ [0x80]).getD position.val 0)

def checksum (text : List UInt8) : Nat → Block
  | 0 => 0
  | count + 1 => checksum text count ^^^ blockOf text count

def masked (F : Block → Block) (offset block : Block) : Block := offset ^^^ F (block ^^^ offset)

def body (F : Block → Block) (start : Block) (text : List UInt8) : List UInt8 :=
  ((List.range (blocks text)).flatMap fun index =>
      (toBytes (masked F (offsetAt E start (index + 1)) (blockOf text index))).toList) ++
    List.zipWith (· ^^^ ·) (rest text)
      (toBytes (E (offsetAt E start (blocks text) ^^^ lStar E))).toList

/-! ## The mode -/

def hashSum (associated : List UInt8) : Nat → Block
  | 0 => 0
  | count + 1 =>
      hashSum associated count ^^^ E (blockOf associated count ^^^ offsetAt E 0 (count + 1))

def hash (associated : List UInt8) : Block :=
  let count := blocks associated
  if rest associated = [] then hashSum E associated count
  else hashSum E associated count ^^^
    E (padded (rest associated) ^^^ (offsetAt E 0 count ^^^ lStar E))

def tagSum (start : Block) (plain : List UInt8) : Block :=
  let count := blocks plain
  if rest plain = [] then checksum plain count ^^^ offsetAt E start count
  else checksum plain count ^^^ padded (rest plain) ^^^ (offsetAt E start count ^^^ lStar E)

def tag (start : Block) (associated plain : List UInt8) : Block :=
  E (tagSum E start plain ^^^ lDollar E) ^^^ hash E associated

def encrypt (nonce associated plain : List UInt8) : List UInt8 :=
  let start := initialOffset E nonce
  body E E start plain ++ (toBytes (tag E start associated plain)).toList

def decrypt (D : Block → Block) (nonce associated cipher : List UInt8) (received : Bytes 16) :
    Option (List UInt8) :=
  let start := initialOffset E nonce
  let plain := body E D start cipher
  if toBytes (tag E start associated plain) = received then some plain else none

/-! ## Decryption undoes encryption -/

variable {E}

@[simp] theorem rest_length (text : List UInt8) : (rest text).length = text.length % 16 := by
  rw [rest, blocks, List.length_drop]
  omega

theorem body_length (F : Block → Block) (start : Block) (text : List UInt8) :
    (body E F start text).length = text.length := by
  have small : text.length % 16 ≤ 16 := by omega
  rw [body, List.length_append, length_flatMap_blocks, List.length_zipWith, rest_length,
    Vector.length_toList, Nat.min_eq_left small, blocks]
  omega

theorem blocks_body (F : Block → Block) (start : Block) (text : List UInt8) :
    blocks (body E F start text) = blocks text := by
  rw [blocks, body_length, blocks]

theorem blockOf_body (F : Block → Block) (start : Block) (text : List UInt8) {index : Nat}
    (whole : index < blocks text) :
    blockOf (body E F start text) index =
      masked F (offsetAt E start (index + 1)) (blockOf text index) := by
  rw [blockOf, body, blockAt_flatMap _ whole, ofBytes_toBytes]

theorem rest_body (F : Block → Block) (start : Block) (text : List UInt8) :
    rest (body E F start text) = List.zipWith (· ^^^ ·) (rest text)
      (toBytes (E (offsetAt E start (blocks text) ^^^ lStar E))).toList := by
  rw [rest, blocks_body, body]
  apply List.drop_left'
  rw [length_flatMap_blocks]

theorem masked_masked {F G : Block → Block} (inverse : ∀ block, G (F block) = block)
    (offset block : Block) : masked G offset (masked F offset block) = block := by
  have unmasked : offset ^^^ F (block ^^^ offset) ^^^ offset = F (block ^^^ offset) := by
    rw [BitVec.xor_comm offset, BitVec.xor_assoc, BitVec.xor_self, BitVec.xor_zero]
  rw [masked, masked, unmasked, inverse, BitVec.xor_comm, BitVec.xor_assoc, BitVec.xor_self,
    BitVec.xor_zero]

private theorem zipWith_xor_twice (text pad : List UInt8) (short : text.length ≤ pad.length) :
    List.zipWith (· ^^^ ·) (List.zipWith (· ^^^ ·) text pad) pad = text := by
  apply List.ext_getElem
  · simp
    omega
  · intro index _ _
    rw [List.getElem_zipWith, List.getElem_zipWith, UInt8.xor_assoc, UInt8.xor_self, UInt8.xor_zero]

theorem body_body {F G : Block → Block} (inverse : ∀ block, G (F block) = block)
    (start : Block) (text : List UInt8) :
    body E G start (body E F start text) = text := by
  have whole : ((List.range (blocks text)).flatMap fun index =>
      (toBytes (masked G (offsetAt E start (index + 1))
        (blockOf (body E F start text) index))).toList) =
      (List.range (blocks text)).flatMap fun index => (blockAt 16 text index).toList := by
    apply List.flatMap_congr
    intro index inside
    rw [blockOf_body F start text (List.mem_range.mp inside), masked_masked inverse, blockOf,
      toBytes_ofBytes]
  have fits : 16 * blocks text ≤ text.length := Nat.mul_div_le text.length 16
  rw [body, blocks_body, whole, flatMap_blockAt text fits, rest_body,
    zipWith_xor_twice _ _ (by rw [rest_length, Vector.length_toList]; omega), rest,
    List.take_append_drop]

/-- Decryption accepts exactly what encryption produces. -/
theorem decrypt_eq_some_iff {D : Block → Block} (decrypts : ∀ block, D (E block) = block)
    (encrypts : ∀ block, E (D block) = block) (nonce associated cipher plain : List UInt8)
    (received : Bytes 16) :
    decrypt E D nonce associated cipher received = some plain ↔
      encrypt E nonce associated plain = cipher ++ received.toList := by
  constructor
  · intro accepted
    rw [decrypt, Option.ite_none_right_eq_some] at accepted
    rcases accepted with ⟨sameTag, samePlain⟩
    rw [Option.some.injEq] at samePlain
    rw [samePlain] at sameTag
    rw [encrypt, sameTag, ← samePlain, body_body encrypts]
  · intro produced
    have lengths := congrArg List.length produced
    rw [encrypt, List.length_append, List.length_append, Vector.length_toList,
      Vector.length_toList] at lengths
    rcases List.append_inj produced (by omega) with ⟨sameBody, sameTag⟩
    have samePlain : body E D (initialOffset E nonce) cipher = plain := by
      rw [← sameBody, body_body decrypts]
    rw [decrypt, samePlain, if_pos (Vector.toList_inj.mp sameTag)]

end Mode

end Penglai.Ocb
