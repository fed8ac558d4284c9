import Penglai.Foundation.ArrayLoop
import Penglai.Foundation.Ocb
import Penglai.Gm.Sm4Enc

namespace Penglai.Gm

/-! # Block arithmetic of the OCB code

The byte loops of `SM4_Enc.c` against the operations on 128-bit blocks they
implement. Every equation is proved bit by bit: bit `j` of a block is bit
`j % 8` of byte `15 - j / 8`. -/

open Ocb (ofBytes toBytes)

theorem getLsbD_ofBytes (bytes : Bytes 16) {position : Nat} (inside : position < 128) :
    (ofBytes bytes).getLsbD position =
      bytes[15 - position / 8].toNat.testBit (position % 8) := by
  rw [ofBytes, BitVec.getLsbD_ofNat, bytes.testBit_toNat inside]
  simp [inside]

theorem ofBytes_zeroBlock : ofBytes zeroBlock = 0 := by
  apply BitVec.eq_of_getLsbD_eq
  intro position inside
  simp [getLsbD_ofBytes _ inside, zeroBlock]

@[simp] theorem ofBytes_xor16 (a b : Bytes 16) :
    ofBytes (xor16 a b) = ofBytes a ^^^ ofBytes b := by
  apply BitVec.eq_of_getLsbD_eq
  intro position inside
  simp [getLsbD_ofBytes _ inside, xor16]

/-! ## Shifting a string -/

theorem testBit_shiftedByte (count : Nat) (bounded : count ≤ 8) (here next : UInt8)
    {position : Nat} (inside : position < 8) :
    (((here.toNat <<< count) ||| (next.toNat >>> (8 - count))) &&& 255).testBit position =
      if count ≤ position then here.toNat.testBit (position - count)
      else next.toNat.testBit (position + 8 - count) := by
  have nextBound : next.toNat < 2 ^ 8 := next.toNat_lt
  have mask : (255 : Nat).testBit position = true := by
    interval_cases position <;> rfl
  rw [Nat.testBit_and, Nat.testBit_or, Nat.testBit_shiftLeft, Nat.testBit_shiftRight, mask]
  by_cases shifted : count ≤ position
  · have beyond : next.toNat.testBit (8 - count + position) = false := by
      apply Nat.testBit_lt_two_pow
      exact nextBound.trans_le (Nat.pow_le_pow_right (by decide) (by omega))
    simp [shifted, beyond]
  · have index : 8 - count + position = position + 8 - count := by omega
    simp [shifted, index]

theorem testBit_shiftedLow (here : UInt8) {position : Nat} (inside : position < 8) :
    ((here &&& 127) <<< 1).toNat.testBit position =
      (decide (1 ≤ position) && here.toNat.testBit (position - 1)) := by
  have mask : position ≠ 0 → (127 : Nat).testBit (position - 1) = true := by
    interval_cases position <;> decide
  have shift : (1 : UInt8).toNat % 8 = 1 := by decide
  have low : (127 : UInt8).toNat = 127 := by decide
  rw [UInt8.toNat_shiftLeft, shift, Nat.testBit_mod_two_pow, Nat.testBit_shiftLeft,
    UInt8.toNat_and, low, Nat.testBit_and]
  by_cases lowest : position = 0
  · simp [lowest]
  · simp [mask lowest, inside]

/-! ## Doubling -/

private def doubledByte (s : Bytes 16) (index : Nat) : UInt8 :=
  ((s[index]! &&& 127) <<< 1) ||| (s[index + 1]! >>> 7)

private theorem testBit_doubledByte (s : Bytes 16) (index : Nat) {position : Nat}
    (inside : position < 8) :
    (doubledByte s index).toNat.testBit position =
      if 1 ≤ position then s[index]!.toNat.testBit (position - 1)
      else s[index + 1]!.toNat.testBit 7 := by
  rw [doubledByte, UInt8.toNat_or, Nat.testBit_or, testBit_shiftedLow _ inside,
    UInt8.toNat_shiftRight, Nat.testBit_shiftRight]
  by_cases lowest : position = 0
  · simp [lowest]
  · have beyond : s[index + 1]!.toNat.testBit (7 + position) = false := by
      apply Nat.testBit_lt_two_pow
      exact s[index + 1]!.toNat_lt.trans_le (Nat.pow_le_pow_right (by decide) (by omega))
    have positive : 1 ≤ position := by omega
    simp [positive, beyond]

private theorem testBit_reduction (top : UInt8) {position : Nat} (inside : position < 8) :
    (((0 : UInt8) - (top >>> 7)) &&& 135).toNat.testBit position =
      (top.toNat.testBit 7 && (135 : Nat).testBit position) := by
  have bound : top.toNat < 256 := top.toNat_lt
  have shifted : (top >>> 7).toNat = top.toNat / 128 := by
    rw [UInt8.toNat_shiftRight]
    exact Nat.shiftRight_eq_div_pow _ 7
  rw [UInt8.toNat_and, Nat.testBit_and, UInt8.toNat_sub, shifted]
  have topBit : top.toNat.testBit 7 = decide (128 ≤ top.toNat) := by
    rw [Nat.testBit_eq_decide_div_mod_eq]
    congr 1
    simp only [eq_iff_iff]
    omega
  by_cases set : 128 ≤ top.toNat
  · have quotient : top.toNat / 128 = 1 := by omega
    rw [topBit, quotient]
    simp only [set, decide_true]
    interval_cases position <;> decide
  · have quotient : top.toNat / 128 = 0 := by omega
    simp [topBit, quotient, set]

private theorem doubleArr_getElem (s : Bytes 16) {index : Nat} (inside : index < 16) :
    (doubleArr s)[index] =
      if index < 15 then doubledByte s index
      else ((s[15] &&& 127) <<< 1) ^^^ (((0 : UInt8) - (s[0] >>> 7)) &&& 135) := by
  have shifted : ∀ cell < 16,
      (forRange 0 15 (fun i (state : Bytes 16) =>
        state.set! i (((state[i]! &&& 127) <<< 1) ||| (state[i + 1]! >>> 7))) s)[cell]! =
      if cell < 15 then doubledByte s cell else s[cell]! := by
    intro cell valid
    rw [getElem!_forRange_set_here]
    · split_ifs <;> first | rfl | omega
    · intro done bound state agree
      rw [agree (0 + done) (by omega), agree (0 + done + 1) (by omega)]
  rw [doubleArr, Vector.set!_eq_setIfInBounds, Vector.getElem_setIfInBounds,
    ← getElem!_pos _ index inside, shifted index inside, shifted 15 (by decide)]
  by_cases last : 15 = index
  · subst last
    rfl
  · rw [if_neg last, if_pos (by omega), if_pos (by omega)]

theorem ofBytes_doubleArr (s : Bytes 16) : ofBytes (doubleArr s) = Ocb.double (ofBytes s) := by
  have top : (ofBytes s).msb = s[0].toNat.testBit 7 := by
    rw [BitVec.msb_eq_getLsbD_last, getLsbD_ofBytes s (by decide)]
  have reduced : Ocb.double (ofBytes s) =
      (ofBytes s <<< 1) ^^^ (if s[0].toNat.testBit 7 then 135#128 else 0) := by
    rw [Ocb.double, top]
    split_ifs <;> simp
  rw [reduced]
  apply BitVec.eq_of_getLsbD_eq
  intro position inside
  have bitInside : position % 8 < 8 := Nat.mod_lt _ (by decide)
  have reduction : (if s[0].toNat.testBit 7 then 135#128 else 0).getLsbD position =
      (s[0].toNat.testBit 7 && (135 : Nat).testBit position) := by
    split_ifs with set
    · rw [BitVec.getLsbD_ofNat, set]
      simp [inside]
    · simp [set]
  rw [getLsbD_ofBytes _ inside, doubleArr_getElem s (by omega), BitVec.getLsbD_xor,
    BitVec.getLsbD_shiftLeft, reduction]
  by_cases lastByte : position < 8
  · have place : 15 - position / 8 = 15 := by omega
    have bit : position % 8 = position := Nat.mod_eq_of_lt lastByte
    rw [if_neg (by omega), UInt8.toNat_xor, Nat.testBit_xor, bit,
      testBit_shiftedLow _ lastByte, testBit_reduction _ lastByte]
    by_cases lowest : position = 0
    · simp [lowest]
    · have before : 15 - (position - 1) / 8 = 15 := by omega
      have beforeBit : (position - 1) % 8 = position - 1 := Nat.mod_eq_of_lt (by omega)
      rw [getLsbD_ofBytes s (by omega)]
      simp [inside, lowest, before, beforeBit, Nat.one_le_iff_ne_zero]
  · have unreduced : (135 : Nat).testBit position = false := by
      apply Nat.testBit_lt_two_pow
      calc 135 < 2 ^ 8 := by decide
        _ ≤ 2 ^ position := Nat.pow_le_pow_right (by decide) (by omega)
    rw [if_pos (by omega), testBit_doubledByte s _ bitInside, unreduced,
      getLsbD_ofBytes s (by omega), getElem!_pos s (15 - position / 8) (by omega),
      getElem!_pos s (15 - position / 8 + 1) (by omega)]
    by_cases carried : 1 ≤ position % 8
    · have sameByte : (position - 1) / 8 = position / 8 := by omega
      have bit : (position - 1) % 8 = position % 8 - 1 := by omega
      have nonzero : position ≠ 0 := by omega
      simp [carried, sameByte, bit, inside, nonzero]
    · have nextByte : 15 - (position - 1) / 8 = 15 - position / 8 + 1 := by omega
      have bit : (position - 1) % 8 = 7 := by omega
      have nonzero : position ≠ 0 := by omega
      simp [carried, nextByte, bit, inside, nonzero]

/-! ## The nonce block -/

private theorem storeOffset_of_inside {offset : Bytes 24} {cell : Nat} (inside : cell < 24)
    (value : UInt8 → UInt8) :
    storeOffset offset cell value = some (offset.set! cell (value offset[cell]!)) := by
  rw [storeOffset, if_pos (by omega), Int.toNat_natCast]

theorem getD_concat (front : List UInt8) (last : UInt8) (cell : Nat) :
    (front ++ [last]).getD cell 0 = if front.length = cell then last else front.getD cell 0 := by
  rcases Nat.lt_trichotomy cell front.length with before | here | past
  · simp [List.getElem?_append_left before, Nat.ne_of_gt before]
  · simp [here]
  · simp [List.getElem?_eq_none, Nat.ne_of_lt past, past.le, Nat.succ_le_of_lt past]

/-- Zeros, a one and the nonce: the 16 bytes of the nonce block. -/
def nonceBytes (nonce : List UInt8) : List UInt8 :=
  List.replicate (15 - nonce.length) 0 ++ 1 :: nonce

private theorem storeNonce {nonce : List UInt8} (short : nonce.length ≤ 15) {start : Bytes 24}
    (marked : ∀ cell < 24,
      start[cell]! = (List.replicate (15 - nonce.length) (0 : UInt8) ++ [1]).getD cell 0) :
    ∃ final,
      forRangeM 0 nonce.length (fun i offset =>
        storeOffset offset (15 - (nonce.length : Int) + 1 + i) (fun _ => nonce.getD i 0)) start =
        some final ∧
      ∀ cell < 24, final[cell]! = (nonceBytes nonce).getD cell 0 := by
  let written (done : Nat) : List UInt8 :=
    List.replicate (15 - nonce.length) 0 ++ 1 :: nonce.take done
  have grows : ∀ done < nonce.length, written (done + 1) = written done ++ [nonce.getD done 0] := by
    intro done inside
    simp only [written, List.take_add_one, List.append_assoc, List.cons_append]
    simp [inside]
  have all : nonceBytes nonce = written nonce.length := by
    simp [nonceBytes, written]
  rw [all]
  refine forRangeM_invariant
    (fun done (state : Bytes 24) => ∀ cell < 24, state[cell]! = (written done).getD cell 0)
    (by simpa [written] using marked) nonce.length ?_
  intro done bound state before
  have target : 15 - (nonce.length : Int) + 1 + ((0 + done : Nat) : Int) =
      ((16 - nonce.length + done : Nat) : Int) := by omega
  have length : (written done).length = 16 - nonce.length + done := by
    simp [written]
    omega
  refine ⟨state.set! (16 - nonce.length + done) (nonce.getD done 0), ?_, ?_⟩
  · rw [target, storeOffset_of_inside (by omega), Nat.zero_add]
  · intro cell inside
    rw [getElem!_set!, grows done bound, getD_concat, before cell inside, length]
    simp only [inside, and_true]

/-- For nonces of at most 15 bytes every store of the nonce block is inside the
buffer. -/
theorem formatNonce_spec {nonce : List UInt8} (short : nonce.length ≤ 15) :
    ∃ offset, formatNonce nonce = some offset ∧
      ∀ cell < 24, offset[cell]! = (nonceBytes nonce).getD cell 0 := by
  have index : (15 : Int) - nonce.length = ((15 - nonce.length : Nat) : Int) := by omega
  have zeros : ∀ cell < 24, (Vector.replicate 24 0 : Bytes 24)[cell]! = (0 : UInt8) := by
    intro cell inside
    rw [getElem!_pos _ cell inside, Vector.getElem_replicate]
  have marker : storeOffset (Vector.replicate 24 0) (15 - (nonce.length : Int)) (· ||| 1) =
      some ((Vector.replicate 24 0).set! (15 - nonce.length) 1) := by
    rw [index, storeOffset_of_inside (by omega), zeros _ (by omega)]
    rfl
  have marked : ∀ cell < 24,
      ((Vector.replicate 24 0).set! (15 - nonce.length) 1 : Bytes 24)[cell]! =
        (List.replicate (15 - nonce.length) (0 : UInt8) ++ [1]).getD cell 0 := by
    intro cell inside
    have blank : (List.replicate (15 - nonce.length) (0 : UInt8)).getD cell 0 = 0 := by
      simp only [List.getD_eq_getElem?_getD, List.getElem?_replicate]
      split_ifs <;> rfl
    rw [getElem!_set!, getD_concat, List.length_replicate, zeros cell inside, blank]
    simp only [inside, and_true]
  rcases storeNonce short marked with ⟨final, succeeds, filled⟩
  refine ⟨final, ?_, filled⟩
  rw [formatNonce]
  simp only [marker, Option.bind_eq_bind, Option.bind_some]
  exact succeeds

theorem ofBytes_nonce {nonce : List UInt8} {bytes : Bytes 16}
    (formatted : bytes.toList = nonceBytes nonce) :
    ofBytes bytes = Ocb.nonceBlock nonce := by
  have zeros : ∀ count, beNat (List.replicate count 0) = 0 := by
    intro count
    induction count with
    | zero => rfl
    | succ count induction => rw [List.replicate_succ', beNat_concat, induction]; rfl
  rw [ofBytes, Bytes.toNat, formatted, nonceBytes, beNat_append, zeros, ← List.singleton_append,
    beNat_append, Ocb.nonceBlock]
  congr 1
  simp [beNat, pow_mul]

/-! ## The stretch -/

def stretchByte (ktop : Bytes 16) (cell : Nat) : UInt8 :=
  if cell < 16 then ktop[cell]! else ktop[cell - 16]! ^^^ ktop[cell - 15]!

theorem getLsbD_stretch (ktop : Bytes 16) {position : Nat} (inside : position < 192) :
    (Ocb.stretch (ofBytes ktop)).getLsbD position =
      (stretchByte ktop (23 - position / 8)).toNat.testBit (position % 8) := by
  rw [Ocb.stretch, BitVec.getLsbD_append, stretchByte]
  by_cases low : position < 64
  · have first : 15 - (64 + position) / 8 = 23 - position / 8 - 16 := by omega
    have second : 15 - (56 + position) / 8 = 23 - position / 8 - 15 := by omega
    have firstBit : (64 + position) % 8 = position % 8 := by omega
    have secondBit : (56 + position) % 8 = position % 8 := by omega
    rw [if_pos low, if_neg (by omega), BitVec.getLsbD_xor, BitVec.getLsbD_extractLsb',
      BitVec.getLsbD_extractLsb', getLsbD_ofBytes ktop (by omega),
      getLsbD_ofBytes ktop (by omega), UInt8.toNat_xor, Nat.testBit_xor,
      getElem!_pos ktop (23 - position / 8 - 16) (by omega),
      getElem!_pos ktop (23 - position / 8 - 15) (by omega)]
    simp [low, first, second, firstBit, secondBit]
  · have byte : 15 - (position - 64) / 8 = 23 - position / 8 := by omega
    have bit : (position - 64) % 8 = position % 8 := by omega
    rw [if_neg low, if_pos (by omega), getLsbD_ofBytes ktop (by omega),
      getElem!_pos ktop (23 - position / 8) (by omega)]
    simp [byte, bit]

theorem ofBytes_stretchWindow (ktop : Bytes 16) {bottom : Nat} (small : bottom < 64) :
    ofBytes (Vector.ofFn fun i : Fin 16 => UInt8.ofNat
        ((((stretchByte ktop (i.val + bottom / 8)).toNat <<< (bottom % 8)) |||
          ((stretchByte ktop (i.val + bottom / 8 + 1)).toNat >>> (8 - bottom % 8))) &&& 255)) =
      Ocb.stretchWindow (ofBytes ktop) bottom := by
  apply BitVec.eq_of_getLsbD_eq
  intro position inside
  have bitInside : position % 8 < 8 := Nat.mod_lt _ (by decide)
  have narrow : ∀ value : Nat, (UInt8.ofNat (value &&& 255)).toNat = value &&& 255 := by
    intro value
    rw [UInt8.toNat_ofNat']
    apply Nat.mod_eq_of_lt
    exact Nat.and_lt_two_pow value (show 255 < 2 ^ 8 by decide)
  rw [getLsbD_ofBytes _ inside, Vector.getElem_ofFn, narrow,
    testBit_shiftedByte _ (by omega) _ _ bitInside, Ocb.stretchWindow,
    BitVec.getLsbD_extractLsb', BitVec.getLsbD_shiftLeft, getLsbD_stretch ktop (by omega)]
  by_cases shifted : bottom % 8 ≤ position % 8
  · have byte : 23 - (64 + position - bottom) / 8 = 15 - position / 8 + bottom / 8 := by omega
    have bit : (64 + position - bottom) % 8 = position % 8 - bottom % 8 := by omega
    have valid : 64 + position < 192 := by omega
    have past : ¬64 + position < bottom := by omega
    simp only [inside, valid, past, byte, bit, if_pos shifted]
    simp
  · have byte : 23 - (64 + position - bottom) / 8 = 15 - position / 8 + bottom / 8 + 1 := by
      omega
    have bit : (64 + position - bottom) % 8 = position % 8 + 8 - bottom % 8 := by omega
    have valid : 64 + position < 192 := by omega
    have past : ¬64 + position < bottom := by omega
    simp only [inside, valid, past, byte, bit, if_neg shifted]
    simp

/-! ## The initial offset -/

def sm4Cipher (key : Bytes 16) (block : Ocb.Block) : Ocb.Block :=
  ofBytes (sm4Encrypt key (toBytes block))

@[simp] theorem sm4Cipher_ofBytes (key block : Bytes 16) :
    sm4Cipher key (ofBytes block) = ofBytes (sm4Encrypt key block) := by
  rw [sm4Cipher, Ocb.toBytes_ofBytes]

def firstBlock (offset : Bytes 24) : Bytes 16 := Vector.ofFn fun i => offset[i.val]!

private theorem bottom_eq (block : Bytes 16) :
    block[15]!.toNat % 64 = (ofBytes block).toNat % 64 := by
  rw [getElem!_pos block 15 (by decide)]
  apply Nat.eq_of_testBit_eq
  intro position
  rw [show 64 = 2 ^ 6 by rfl, Nat.testBit_mod_two_pow, Nat.testBit_mod_two_pow]
  by_cases inside : position < 6
  · have bit := getLsbD_ofBytes block (show position < 128 by omega)
    have place : 15 - position / 8 = 15 := by omega
    have offset : position % 8 = position := by omega
    rw [BitVec.getLsbD] at bit
    simp only [place, offset] at bit
    rw [bit]
  · simp [inside]

private theorem ofBytes_clearBottom (block : Bytes 16) :
    ofBytes (block.set! 15 (block[15]! ^^^ UInt8.ofNat (block[15]!.toNat % 64))) =
      ofBytes block &&& ~~~63#128 := by
  rw [getElem!_pos block 15 (by decide), Vector.set!_eq_setIfInBounds]
  apply BitVec.eq_of_getLsbD_eq
  intro position inside
  have mask : (63#128).getLsbD position = decide (position < 6) := by
    rw [BitVec.getLsbD_ofNat, show 63 = 2 ^ 6 - 1 by rfl, Nat.testBit_two_pow_sub_one]
    simp [inside]
  rw [BitVec.getLsbD_and, BitVec.getLsbD_not, mask, getLsbD_ofBytes _ inside,
    getLsbD_ofBytes _ inside]
  by_cases lastByte : position < 8
  · have place : 15 - position / 8 = 15 := by omega
    have bit : position % 8 = position := Nat.mod_eq_of_lt lastByte
    have low : (UInt8.ofNat (block[15].toNat % 64)).toNat = block[15].toNat % 2 ^ 6 := by
      rw [UInt8.toNat_ofNat']
      omega
    simp only [place, bit, Vector.getElem_setIfInBounds_self, UInt8.toNat_xor, Nat.testBit_xor, low,
      Nat.testBit_mod_two_pow, inside, decide_true, Bool.true_and]
    by_cases cleared : position < 6 <;> simp [cleared]
  · rw [Vector.getElem_setIfInBounds_ne _ (by omega)]
    have kept : ¬position < 6 := by omega
    simp [inside, kept]

private theorem stretch_loops (ktop : Bytes 16) (offset : Bytes 24) {cell : Nat}
    (inside : cell < 24) :
    (forRange 0 8
      (fun i offset => offset.set! (16 + i) (offset[16 + i]! ^^^ offset[i + 1]!))
      (forRange 0 8 (fun i offset => offset.set! (16 + i) offset[i]!)
        (forRange 0 16 (fun i (offset : Bytes 24) => offset.set! i ktop[i]!) offset)))[cell]! =
      stretchByte ktop cell := by
  have copied : ∀ cell < 16,
      (forRange 0 16 (fun i (offset : Bytes 24) => offset.set! i ktop[i]!) offset)[cell]! =
        ktop[cell]! := by
    intro cell valid
    rw [getElem!_forRange_set_here (fun _ _ _ _ => rfl), if_pos (by omega)]
  generalize forRange 0 16 (fun i (offset : Bytes 24) => offset.set! i ktop[i]!) offset = first
    at copied
  have doubled : ∀ cell < 24,
      (forRange 0 8 (fun i offset => offset.set! (16 + i) offset[i]!) first)[cell]! =
        if cell < 16 then ktop[cell]! else ktop[cell - 16]! := by
    intro cell valid
    rw [getElem!_forRange_set_from]
    · by_cases front : cell < 16
      · rw [if_neg (by omega), if_pos front, copied cell front]
      · rw [if_pos (by omega), if_neg front, copied (cell - 16) (by omega)]
    · intro done bound state agree
      exact agree done (by omega)
  generalize forRange 0 8 (fun i offset => offset.set! (16 + i) offset[i]!) first = second
    at doubled
  rw [getElem!_forRange_set_from, stretchByte]
  · by_cases front : cell < 16
    · rw [if_neg (by omega), if_pos front, doubled cell (by omega), if_pos front]
    · have here : 16 + (cell - 16) = cell := by omega
      have next : cell - 16 + 1 = cell - 15 := by omega
      rw [if_pos (by omega), if_neg front, here, next, doubled cell inside, if_neg front,
        doubled (cell - 15) (by omega), if_pos (by omega)]
  · intro done bound state agree
    rw [agree (16 + done) (by omega), agree (done + 1) (by omega)]

/-- The shift reads at or ahead of the byte it writes. -/
private theorem shift_loop (stretched : Bytes 24) (shift bitShift : Nat) (inside : shift < 8) :
    firstBlock (forRange 0 16
      (fun i (offset : Bytes 24) => offset.set! i (UInt8.ofNat
        (((offset[i + shift]!.toNat <<< bitShift) |||
          (offset[i + shift + 1]!.toNat >>> (8 - bitShift))) &&& 255)))
      stretched) =
    Vector.ofFn fun i : Fin 16 => UInt8.ofNat
      (((stretched[i.val + shift]!.toNat <<< bitShift) |||
        (stretched[i.val + shift + 1]!.toNat >>> (8 - bitShift))) &&& 255) := by
  apply Vector.ext
  intro cell valid
  rw [firstBlock, Vector.getElem_ofFn, Vector.getElem_ofFn, getElem!_forRange_set_here]
  · rw [if_pos (by simp only; omega)]
  · intro done bound state agree
    rw [agree (0 + done + shift) (by omega), agree (0 + done + shift + 1) (by omega)]

theorem firstBlock_toList {nonce : List UInt8} (short : nonce.length ≤ 15) {offset : Bytes 24}
    (formatted : ∀ cell < 24, offset[cell]! = (nonceBytes nonce).getD cell 0) :
    (firstBlock offset).toList = nonceBytes nonce := by
  have length : (nonceBytes nonce).length = 16 := by
    simp [nonceBytes]
    omega
  apply List.ext_getElem
  · rw [Vector.length_toList, length]
  · intro cell inside _
    rw [Vector.length_toList] at inside
    have same := formatted cell (by omega)
    simpa [firstBlock, length, inside] using same

theorem ofBytes_nonceOffset (key : Bytes 16) {nonce : List UInt8} {offset : Bytes 24}
    (short : nonce.length ≤ 15)
    (formatted : ∀ cell < 24, offset[cell]! = (nonceBytes nonce).getD cell 0) :
    ofBytes (firstBlock (nonceOffset key offset)) =
      Ocb.initialOffset (sm4Cipher key) nonce := by
  let block := firstBlock offset
  have blockLast : block[15]! = offset[15] := by
    simp [block, firstBlock]
  have blockValue : ofBytes block = Ocb.nonceBlock nonce :=
    ofBytes_nonce (firstBlock_toList short formatted)
  let bottom := offset[15].toNat % 64
  have bottomValue : bottom = (Ocb.nonceBlock nonce).toNat % 64 := by
    rw [← blockValue, ← bottom_eq block, blockLast]
  let cleared := offset.set 15 (offset[15] ^^^ UInt8.ofNat bottom)
  have clearedBlock : firstBlock cleared =
      block.set! 15 (block[15]! ^^^ UInt8.ofNat (block[15]!.toNat % 64)) := by
    apply Vector.ext
    intro cell inside
    rw [Vector.set!_eq_setIfInBounds, Vector.getElem_setIfInBounds]
    simp only [firstBlock, cleared, Vector.getElem_ofFn, blockLast, bottom]
    rw [getElem!_pos _ cell (by omega), Vector.getElem_set]
    split_ifs with last
    · rfl
    · simp [block, firstBlock, getElem!_pos offset cell (by omega)]
  let ktop := sm4Encrypt key (firstBlock cleared)
  have ktopValue : ofBytes ktop = sm4Cipher key (Ocb.nonceBlock nonce &&& ~~~63#128) := by
    rw [← blockValue, ← ofBytes_clearBottom, ← clearedBlock, sm4Cipher_ofBytes]
  have shifted := shift_loop
    (forRange 0 8
      (fun i offset => offset.set! (16 + i) (offset[16 + i]! ^^^ offset[i + 1]!))
      (forRange 0 8 (fun i offset => offset.set! (16 + i) offset[i]!)
        (forRange 0 16 (fun i (offset : Bytes 24) => offset.set! i ktop[i]!) cleared)))
    (bottom / 8) (bottom % 8) (by omega)
  have window : firstBlock (nonceOffset key offset) =
      Vector.ofFn fun i : Fin 16 => UInt8.ofNat
        ((((stretchByte ktop (i.val + bottom / 8)).toNat <<< (bottom % 8)) |||
          ((stretchByte ktop (i.val + bottom / 8 + 1)).toNat >>> (8 - bottom % 8))) &&& 255) := by
    refine Eq.trans shifted ?_
    apply Vector.ext
    intro cell inside
    rw [Vector.getElem_ofFn, Vector.getElem_ofFn, stretch_loops ktop cleared (by omega),
      stretch_loops ktop cleared (by omega)]
  rw [window, ofBytes_stretchWindow ktop (by omega), ktopValue, bottomValue,
    Ocb.initialOffset]

end Penglai.Gm
