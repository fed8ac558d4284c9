import Penglai.Foundation.Buffer
import Penglai.Gm.Sm4

namespace Penglai.Gm

/-! # SM4 in OCB mode (`gm/src/SM4_Enc.c`)

Lengths are those of the strings given. An access outside the table `l` or the
nonce buffer, which the code does not guard against, is `none`. -/

def ocbNtz (a : Nat) : Nat := ((List.range 32).find? fun bit => a.testBit bit).getD 32

/-- `ocb_ntz_round(a) + 1`. The macro does not bracket its conditional, so the
increment belongs to the second branch only. -/
def ocbNtzRoundSucc (a : Nat) : Nat := if a = 0 then 0 else 32 - (31 - a.log2) - 1 + 1

def zeroBlock : Bytes 16 := Vector.replicate 16 0

def doubleArr (s : Bytes 16) : Bytes 16 :=
  let firstBit := (0 : UInt8) - (s[0]! >>> 7)
  let s := forRange 0 15
    (fun i s => s.set! i (((s[i]! &&& 127) <<< 1) ||| (s[i + 1]! >>> 7))) s
  s.set! 15 (((s[15]! &&& 127) <<< 1) ^^^ (firstBit &&& 135))

def xor16 (a b : Bytes 16) : Bytes 16 := Vector.zipWith (· ^^^ ·) a b

theorem xor16_comm (a b : Bytes 16) : xor16 a b = xor16 b a := by
  apply Vector.ext
  intro i inside
  simp only [xor16, Vector.getElem_zipWith]
  exact UInt8.xor_comm ..

@[simp] theorem xor16_xor16 (a b : Bytes 16) : xor16 (xor16 a b) b = a := by
  apply Vector.ext
  intro i inside
  simp only [xor16, Vector.getElem_zipWith]
  rw [UInt8.xor_assoc, UInt8.xor_self, UInt8.xor_zero]

/-! ## Set-up, the same text in both directions -/

structure OcbSetup where
  l : List (Bytes 16)
  lAsterisk : Bytes 16
  lDollar : Bytes 16
  offset : Bytes 16

def ocbTable (l0 : Bytes 16) (lLength : Nat) : Option (List (Bytes 16)) :=
  if lLength = 0 then none
  else some (forRange 1 (lLength - 1) (fun i l => l ++ [doubleArr (l.getD (i - 1) zeroBlock)]) [l0])

def storeOffset (offset : Bytes 24) (index : Int) (value : UInt8 → UInt8) :
    Option (Bytes 24) :=
  if 0 ≤ index ∧ index < 24 then some (offset.set! index.toNat (value offset[index.toNat]!))
  else none

def formatNonce (nonce : List UInt8) : Option (Bytes 24) := do
  let index : Int := 15 - nonce.length
  let offset ← storeOffset (Vector.replicate 24 0) index (· ||| 1)
  forRangeM 0 nonce.length
    (fun i offset => storeOffset offset (index + 1 + i) (fun _ => nonce.getD i 0)) offset

/-- Encryption of the nonce block and the shift by `bottom` bits, in place in
one 24-byte buffer. -/
def nonceOffset (key : Bytes 16) (offset : Bytes 24) : Bytes 24 :=
  let bottom := offset[15].toNat % 64
  let offset := offset.set 15 (offset[15] ^^^ UInt8.ofNat bottom)
  let ktop := sm4Encrypt key (Vector.ofFn fun i => offset[i.val]!)
  let offset := forRange 0 16 (fun i offset => offset.set! i ktop[i]!) offset
  let offset := forRange 0 8 (fun i offset => offset.set! (16 + i) offset[i]!) offset
  let offset := forRange 0 8
    (fun i offset => offset.set! (16 + i) (offset[16 + i]! ^^^ offset[i + 1]!)) offset
  let shift := bottom / 8
  let bitShift := bottom % 8
  forRange 0 16
    (fun i offset => offset.set! i (UInt8.ofNat
      (((offset[i + shift]!.toNat <<< bitShift) |||
        (offset[i + shift + 1]!.toNat >>> (8 - bitShift))) &&& 255)))
    offset

def ocbSetup (key : Bytes 16) (nonce : List UInt8) (messageLength associatedDataLength : Nat) :
    Option OcbSetup := do
  let m := messageLength / 16
  let lLength :=
    if messageLength > associatedDataLength then ocbNtzRoundSucc m
    else ocbNtzRoundSucc (associatedDataLength / 16)
  let lAsterisk := sm4Encrypt key zeroBlock
  let lDollar := doubleArr lAsterisk
  let l ← ocbTable (doubleArr lDollar) lLength
  let offset ← formatNonce nonce
  let offset := nonceOffset key offset
  some { l, lAsterisk, lDollar, offset := Vector.ofFn fun i => offset[i.val]! }

/-! ## Associated data -/

structure HashState where
  offset : Bytes 16
  cipherTemp : Bytes 16
  out : Bytes 16

def hashBlock (key : Bytes 16) (associatedData : List UInt8) (l : List (Bytes 16)) (i : Nat)
    (state : HashState) : Option HashState := do
  let cipherTemp : Bytes 16 := Vector.ofFn fun k => associatedData.getD (i * 16 + k.val) 0
  let entry ← l[ocbNtz (i + 1)]?
  let offset := xor16 state.offset entry
  let cipherTemp := sm4Encrypt key (xor16 cipherTemp offset)
  some { offset, cipherTemp, out := xor16 state.out cipherTemp }

def hashRest (key : Bytes 16) (associatedData : List UInt8) (lAsterisk : Bytes 16)
    (aAsteriskLength fullBlockLength : Nat) (state : HashState) : HashState :=
  let offset := xor16 state.offset lAsterisk
  let cipherTemp := forRange 0 aAsteriskLength
    (fun i cipherTemp => cipherTemp.set! i (associatedData.getD (fullBlockLength + i) 0))
    state.cipherTemp
  let cipherTemp := cipherTemp.set! aAsteriskLength 0x80
  let cipherTemp := forRange (aAsteriskLength + 1) (15 - aAsteriskLength)
    (fun i cipherTemp => cipherTemp.set! i 0) cipherTemp
  let cipherTemp := sm4Encrypt key (xor16 cipherTemp offset)
  { offset, cipherTemp, out := xor16 state.out cipherTemp }

/-- `hash`. `cipherTemp` is what the stack held; every byte of it that is read
has been written before. -/
def ocbHash (key : Bytes 16) (associatedData : List UInt8) (l : List (Bytes 16))
    (lAsterisk cipherTemp : Bytes 16) : Option (Bytes 16) := do
  let m := associatedData.length / 16
  let state ← forRangeM 0 m (hashBlock key associatedData l)
    { offset := zeroBlock, cipherTemp, out := zeroBlock }
  let aAsteriskLength := associatedData.length % 16
  let fullBlockLength := associatedData.length ^^^ aAsteriskLength
  if aAsteriskLength > 0 then
    some (hashRest key associatedData lAsterisk aAsteriskLength fullBlockLength state).out
  else some state.out

/-! ## Encryption and decryption -/

def ocbBlock (cipher : Bytes 16 → Bytes 16) (offset : Bytes 16) (out : Buffer) (position : Nat) :
    Buffer :=
  let out := out.write position (xor16 (out.block 16 position) offset)
  let out := out.write position (cipher (out.block 16 position))
  out.write position (xor16 (out.block 16 position) offset)

theorem ocbBlock_eq (cipher : Bytes 16 → Bytes 16) (offset : Bytes 16) (out : Buffer)
    (position : Nat) :
    ocbBlock cipher offset out position =
      out.write position
        (xor16 (cipher (xor16 (out.block 16 position) offset)) offset) := by
  simp [ocbBlock]

def ocbBlocks (cipher : Bytes 16 → Bytes 16) (l : List (Bytes 16)) (m : Nat)
    (offset : Bytes 16) (out : Buffer) : Option (Bytes 16 × Buffer) :=
  forRangeM 0 m
    (fun i (offset, out) => do
      let offset := xor16 offset (← l[ocbNtz (i + 1)]?)
      some (offset, ocbBlock cipher offset out (i * 16)))
    (offset, out)

def ocbChecksum (text : Nat → UInt8) (fullBlockLength : Nat) : Bytes 16 :=
  forRange 0 fullBlockLength
    (fun i checksum => checksum.set! (i % 16) (checksum[i % 16]! ^^^ text i)) zeroBlock

def ocbTag (key : Bytes 16) (setup : OcbSetup) (associatedData : List UInt8)
    (stale checksum offset : Bytes 16) : Option (Bytes 16) := do
  let checksum := xor16 checksum offset
  let checksum := xor16 checksum setup.lDollar
  let checksum := sm4Encrypt key checksum
  let offset ← ocbHash key associatedData setup.l setup.lAsterisk stale
  some (xor16 checksum offset)

structure OcbState where
  offset : Bytes 16
  out : Buffer
  checksum : Bytes 16

/-- The partial block in `SM4_OCB_Encrypt`: the pad is made in `out` itself. -/
def encryptRest (key : Bytes 16) (message : List UInt8) (lAsterisk : Bytes 16)
    (pAsteriskLength fullBlockLength : Nat) (state : OcbState) : OcbState :=
  let offset := xor16 state.offset lAsterisk
  let out := state.out.write fullBlockLength offset
  let out := out.write fullBlockLength (sm4Encrypt key (out.block 16 fullBlockLength))
  let out := forRange 0 pAsteriskLength
    (fun i out => out.set (fullBlockLength + i)
      (out.get (fullBlockLength + i) ^^^ message.getD (fullBlockLength + i) 0)) out
  let checksum := forRange 0 pAsteriskLength
    (fun i checksum => checksum.set! i (checksum[i]! ^^^ message.getD (fullBlockLength + i) 0))
    state.checksum
  { offset, out,
    checksum := checksum.set! pAsteriskLength (checksum[pAsteriskLength]! ^^^ 0x80) }

def sm4OcbEncrypt (key : Bytes 16) (nonce message associatedData : List UInt8) (stale : Bytes 16)
    (out : Buffer) : Option Buffer := do
  let setup ← ocbSetup key nonce message.length associatedData.length
  let m := message.length / 16
  let out := out.copy 0 message
  let (offset, out) ← ocbBlocks (sm4Encrypt key) setup.l m setup.offset out
  let pAsteriskLength := message.length % 16
  let fullBlockLength := message.length ^^^ pAsteriskLength
  let checksum := ocbChecksum (fun i => message.getD i 0) fullBlockLength
  let state : OcbState := { offset, out, checksum }
  let state :=
    if pAsteriskLength > 0 then
      encryptRest key message setup.lAsterisk pAsteriskLength fullBlockLength state
    else state
  let checksum ← ocbTag key setup associatedData stale state.checksum state.offset
  some (state.out.write (fullBlockLength + pAsteriskLength) checksum)

/-- The partial block in `SM4_OCB_Decrypt`: the pad is made in a local array. -/
def decryptRest (key : Bytes 16) (encrypted : List UInt8) (lAsterisk : Bytes 16)
    (cAsteriskLength fullBlockLength : Nat) (state : OcbState) : OcbState :=
  let offset := xor16 state.offset lAsterisk
  let pad := sm4Encrypt key offset
  let pad := forRange 0 cAsteriskLength
    (fun i pad => pad.set! i (pad[i]! ^^^ encrypted.getD (fullBlockLength + i) 0)) pad
  let out := forRange 0 cAsteriskLength
    (fun i out => out.set (fullBlockLength + i) pad[i]!) state.out
  let checksum := forRange 0 cAsteriskLength
    (fun i checksum => checksum.set! i (checksum[i]! ^^^ pad[i]!)) state.checksum
  { offset, out,
    checksum := checksum.set! cAsteriskLength (checksum[cAsteriskLength]! ^^^ 0x80) }

/-- `SM4_OCB_Decrypt` on `encrypted_length` bytes followed by the tag: the
status and the buffer `out` after the call. -/
def sm4OcbDecrypt (key : Bytes 16) (nonce encrypted associatedData : List UInt8)
    (encryptedLength : Nat) (stale : Bytes 16) (out : Buffer) : Option (UInt32 × Buffer) := do
  let setup ← ocbSetup key nonce encryptedLength associatedData.length
  let m := encryptedLength / 16
  let cAsteriskLength := encryptedLength % 16
  let fullBlockLength := encryptedLength ^^^ cAsteriskLength
  let out := out.copy 0 (encrypted.take fullBlockLength)
  let (offset, out) ← ocbBlocks (sm4Decrypt key) setup.l m setup.offset out
  let checksum := ocbChecksum out.get fullBlockLength
  let state : OcbState := { offset, out, checksum }
  let state :=
    if cAsteriskLength > 0 then
      decryptRest key encrypted setup.lAsterisk cAsteriskLength fullBlockLength state
    else state
  let checksum ← ocbTag key setup associatedData stale state.checksum state.offset
  let received : Bytes 16 := Vector.ofFn fun i => encrypted.getD (encryptedLength + i.val) 0
  let checksum := xor16 checksum received
  let diff := forRange 0 16 (fun i diff => diff ||| checksum[i]!) (0 : UInt8)
  some (diff.toUInt32, state.out)

end Penglai.Gm
