import Penglai.Foundation.ArrayLoop
import Penglai.Foundation.Sm3
import Penglai.Gm.Sm3Blocks

namespace Penglai.Gm

/-! # `SM3_compress` computes the standard compression function

The code keeps one running constant, fills arrays by index and swaps the block
buffer in place; each of the three is related to the standard by the invariant
of its loop. -/

/-! ## Words -/

theorem toBitVec_sm3Rotl32 (x : UInt32) {n : UInt32} (positive : 0 < n.toNat)
    (small : n.toNat < 32) : (sm3Rotl32 x n).toBitVec = x.toBitVec.rotateLeft n.toNat := by
  have left : (n.toBitVec % 32).toNat = n.toNat % 32 := by
    rw [BitVec.toNat_umod, UInt32.toNat_toBitVec]
    rfl
  have difference : (32 - n).toNat = 32 - n.toNat := by
    rw [UInt32.toNat_sub_of_le _ _ (UInt32.le_iff_toNat_le.mpr small.le)]
    rfl
  have right : ((32 - n).toBitVec % 32).toNat = 32 - n.toNat % 32 := by
    rw [BitVec.toNat_umod, UInt32.toNat_toBitVec, difference, Nat.mod_eq_of_lt small]
    exact Nat.mod_eq_of_lt (by simp; omega)
  rw [sm3Rotl32, UInt32.toBitVec_or, UInt32.toBitVec_shiftLeft, UInt32.toBitVec_shiftRight,
    BitVec.rotateLeft_def, BitVec.shiftLeft_eq', BitVec.ushiftRight_eq', left, right]

theorem toBitVec_sm3P0 (x : UInt32) : (sm3P0 x).toBitVec = Sm3.p0 x.toBitVec := by
  rw [sm3P0, Sm3.p0, UInt32.toBitVec_xor, UInt32.toBitVec_xor,
    toBitVec_sm3Rotl32 x (by decide) (by decide), toBitVec_sm3Rotl32 x (by decide) (by decide)]
  rfl

theorem toBitVec_sm3P1 (x : UInt32) : (sm3P1 x).toBitVec = Sm3.p1 x.toBitVec := by
  rw [sm3P1, Sm3.p1, UInt32.toBitVec_xor, UInt32.toBitVec_xor,
    toBitVec_sm3Rotl32 x (by decide) (by decide), toBitVec_sm3Rotl32 x (by decide) (by decide)]
  rfl

theorem toBitVec_ff (j : Nat) (a b c : UInt32) :
    (if j ≤ 15 then sm3Ff0 a b c else sm3Ff1 a b c).toBitVec =
      Sm3.ff j a.toBitVec b.toBitVec c.toBitVec := by
  by_cases early : j < 16
  · rw [if_pos (by omega), Sm3.ff, if_pos early]
    rfl
  · rw [if_neg (by omega), Sm3.ff, if_neg early]
    rfl

theorem toBitVec_gg (j : Nat) (e f g : UInt32) :
    (if j ≤ 15 then sm3Gg0 e f g else sm3Gg1 e f g).toBitVec =
      Sm3.gg j e.toBitVec f.toBitVec g.toBitVec := by
  by_cases early : j < 16
  · rw [if_pos (by omega), Sm3.gg, if_pos early]
    rfl
  · rw [if_neg (by omega), Sm3.gg, if_neg early]
    rfl

/-! ## The byte swap -/

theorem getElem!_swapIfInBounds {width : Nat} (buf : Bytes width) {i j : Nat}
    (iInside : i < width) (jInside : j < width) (cell : Nat) :
    (buf.swapIfInBounds i j)[cell]! =
      if cell = i then buf[j]! else if cell = j then buf[i]! else buf[cell]! := by
  by_cases inside : cell < width
  · have valid : cell < (buf.toArray.swapIfInBounds i j).size := by simpa using inside
    have swapped := Array.getElem_swapIfInBounds valid
    simp only [Vector.size_toArray, iInside, jInside, and_true, Vector.getElem_toArray] at swapped
    rw [getElem!_pos _ cell inside, getElem!_pos _ i iInside, getElem!_pos _ j jInside,
      getElem!_pos _ cell inside]
    exact swapped
  · rw [getElem!_neg _ cell inside, getElem!_neg _ cell inside, if_neg (by omega),
      if_neg (by omega)]

theorem swapIfInBounds_eq_stores {width : Nat} (buf : Bytes width) {i j : Nat}
    (iInside : i < width) (jInside : j < width) :
    buf.swapIfInBounds i j = (buf.set! i buf[j]!).set! j buf[i]! := by
  apply Vector.ext
  intro cell inside
  rw [← getElem!_pos _ cell inside, ← getElem!_pos _ cell inside,
    getElem!_swapIfInBounds _ iInside jInside, getElem!_set!, getElem!_set!]
  simp only [inside, and_true, eq_comm]
  split_ifs with first second
  · rw [first, second]
  · rfl
  · rfl
  · rfl

/-- One iteration of `BigEndian` as its assignments stand, `src` and `des` being
the same buffer. -/
def bigEndianStores {width : Nat} (i : Nat) (buf : Bytes width) : Bytes width :=
  let tmp := buf[4 * i]!
  let buf := buf.set! (4 * i) buf[4 * i + 3]!
  let buf := buf.set! (4 * i + 3) tmp
  let tmp := buf[4 * i + 1]!
  let buf := buf.set! (4 * i + 1) buf[4 * i + 2]!
  buf.set! (4 * i + 2) tmp

theorem bigEndian_eq_stores {width : Nat} (buf : Bytes width) :
    bigEndian buf = forRange 0 (width / 4) bigEndianStores buf := by
  apply forRange_congr
  intro done inside state
  rw [swapIfInBounds_eq_stores _ (by omega) (by omega),
    swapIfInBounds_eq_stores _ (by omega) (by omega)]
  rfl

theorem getElem!_bigEndian {width : Nat} (buf : Bytes width) {cell : Nat}
    (inside : cell < 4 * (width / 4)) :
    (bigEndian buf)[cell]! = buf[4 * (cell / 4) + (3 - cell % 4)]! := by
  have swapped : ∀ cell < 4 * (width / 4), (bigEndian buf)[cell]! =
      if cell / 4 < width / 4 then buf[4 * (cell / 4) + (3 - cell % 4)]! else buf[cell]! := by
    refine forRange_invariant
      (fun done (state : Bytes width) => ∀ cell < 4 * (width / 4), state[cell]! =
        if cell / 4 < done then buf[4 * (cell / 4) + (3 - cell % 4)]! else buf[cell]!)
      (fun cell _ => by rw [if_neg (Nat.not_lt_zero _)]) (width / 4) ?_
    intro done bound state before cell inside
    -- the word of iteration `done` is still as it was
    have untouched : ∀ offset < 4, state[4 * done + offset]! = buf[4 * done + offset]! := by
      intro offset small
      rw [before _ (by omega), if_neg (by omega)]
    rw [Nat.zero_add, getElem!_swapIfInBounds _ (by omega) (by omega),
      getElem!_swapIfInBounds _ (by omega) (by omega),
      getElem!_swapIfInBounds _ (by omega) (by omega),
      getElem!_swapIfInBounds _ (by omega) (by omega)]
    by_cases here : cell / 4 = done
    · have place : cell = 4 * done + cell % 4 := by omega
      have small : cell % 4 < 4 := Nat.mod_lt _ (by decide)
      rw [if_pos (show cell / 4 < done + 1 by omega), here, ← untouched _ (by omega)]
      generalize cell % 4 = offset at place small
      subst place
      interval_cases offset <;> simp
    · have apart : cell ≠ 4 * done ∧ cell ≠ 4 * done + 1 ∧ cell ≠ 4 * done + 2 ∧
          cell ≠ 4 * done + 3 := by omega
      have same : cell / 4 < done ↔ cell / 4 < done + 1 := by omega
      simp only [apart, if_false, before cell inside, same]
  have before := swapped cell inside
  rwa [if_pos (by omega)] at before

/-! ## Message words -/

theorem toBitVec_loadBytes (b0 b1 b2 b3 : UInt8) :
    (b0.toUInt32 ||| b1.toUInt32 <<< 8 ||| b2.toUInt32 <<< 16 ||| b3.toUInt32 <<< 24).toBitVec =
      b3.toBitVec ++ b2.toBitVec ++ b1.toBitVec ++ b0.toBitVec := by
  have past : ∀ (byte : UInt8) {position : Nat}, 8 ≤ position →
      byte.toBitVec.getLsbD position = false :=
    fun byte position outside => BitVec.getLsbD_of_ge byte.toBitVec position outside
  apply BitVec.eq_of_getLsbD_eq
  intro position inside
  simp only [UInt32.toBitVec_or, UInt32.toBitVec_shiftLeft, UInt8.toBitVec_toUInt32,
    BitVec.getLsbD_or, BitVec.getLsbD_append, BitVec.shiftLeft_eq', BitVec.getLsbD_shiftLeft,
    BitVec.getLsbD_setWidth, UInt32.toBitVec_ofNat, BitVec.reduceMod, BitVec.reduceToNat,
    Nat.sub_sub]
  -- one of the four bytes covers the position, the lower ones have ended
  by_cases first : position < 8
  · have below : position < 16 ∧ position < 24 := by omega
    simp [first, below, inside]
  by_cases second : position < 16
  · have place : position < 24 ∧ position - 8 < 8 ∧ position - 8 < 32 := by omega
    simp [first, second, place, inside, past b0 (show 8 ≤ position by omega)]
  by_cases third : position < 24
  · have place : ¬position - 8 < 8 ∧ position - 16 < 8 ∧ position - 16 < 32 := by omega
    simp [first, second, third, place, inside, past b0 (show 8 ≤ position by omega),
      past b1 (show 8 ≤ position - 8 by omega)]
  · have place : ¬position - 8 < 8 ∧ ¬position - 16 < 8 ∧ position - 24 < 32 := by omega
    simp [first, second, third, place, inside, past b0 (show 8 ≤ position by omega),
      past b1 (show 8 ≤ position - 8 by omega), past b2 (show 8 ≤ position - 16 by omega)]

theorem loadWord_bigEndian (block : Bytes 64) {i : Nat} (inside : i < 16) :
    (loadWord (bigEndian block) i).toBitVec = Sm3.messageWord block i := by
  have byte : ∀ offset < 4,
      (bigEndian block)[4 * i + offset]! = block[4 * i + (3 - offset)]! := by
    intro offset small
    have quotient : (4 * i + offset) / 4 = i := by omega
    have remainder : (4 * i + offset) % 4 = offset := by omega
    rw [getElem!_bigEndian block (by omega), quotient, remainder]
  have first := byte 0 (by decide)
  rw [Nat.add_zero] at first
  rw [loadWord, first, byte 1 (by decide), byte 2 (by decide), byte 3 (by decide),
    toBitVec_loadBytes]
  rfl

/-! ## Expansion -/

def blockWords (block : Bytes 64) : Vector UInt32 16 :=
  Vector.ofFn fun i => loadWord (bigEndian block) i.val

theorem biToW_eq (block : Bytes 64) {j : Nat} (inside : j < 68) :
    (biToW (blockWords block))[j]!.toBitVec = Sm3.expanded block j := by
  rw [biToW]
  refine forRange_invariant
    (fun done (w : Vector UInt32 68) => ∀ cell < 16 + done,
      w[cell]!.toBitVec = Sm3.expanded block cell) ?_ 52 ?_ j inside
  · intro cell inside
    rw [getElem!_forRange_set_here (fun _ _ _ _ => rfl), if_pos (by omega),
      getElem!_pos _ cell inside, blockWords, Vector.getElem_ofFn,
      loadWord_bigEndian block inside, Sm3.expanded_of_lt inside]
  · intro done bound w before cell inside
    rw [getElem!_set!]
    by_cases last : 16 + done = cell
    · subst last
      rw [if_pos ⟨rfl, by omega⟩, Sm3.expanded_of_le (by omega), UInt32.toBitVec_xor,
        UInt32.toBitVec_xor, toBitVec_sm3P1, UInt32.toBitVec_xor, UInt32.toBitVec_xor,
        toBitVec_sm3Rotl32 _ (by decide) (by decide), toBitVec_sm3Rotl32 _ (by decide) (by decide),
        before _ (by omega), before _ (by omega), before _ (by omega), before _ (by omega),
        before _ (by omega)]
      rfl
    · rw [if_neg (fun here => last here.1)]
      exact before cell (by omega)

theorem wToW1_eq (block : Bytes 64) {j : Nat} (inside : j < 64) :
    (wToW1 (biToW (blockWords block)))[j]!.toBitVec = Sm3.expanded' block j := by
  rw [wToW1, getElem!_forRange_set_here (fun _ _ _ _ => rfl), if_pos (by omega),
    UInt32.toBitVec_xor, biToW_eq block (by omega), biToW_eq block (by omega), Sm3.expanded']

/-! ## Rounds -/

def CfRegs.registers (regs : CfRegs) : Sm3.Registers where
  a := regs.a.toBitVec
  b := regs.b.toBitVec
  c := regs.c.toBitVec
  d := regs.d.toBitVec
  e := regs.e.toBitVec
  f := regs.f.toBitVec
  g := regs.g.toBitVec
  h := regs.h.toBitVec

def chainingRegisters (v : Vector UInt32 8) : Sm3.Registers where
  a := v[0]!.toBitVec
  b := v[1]!.toBitVec
  c := v[2]!.toBitVec
  d := v[3]!.toBitVec
  e := v[4]!.toBitVec
  f := v[5]!.toBitVec
  g := v[6]!.toBitVec
  h := v[7]!.toBitVec

/-- The running constant after `done` rounds is the one that round `done - 1` used. -/
def RunningConstant (done : Nat) (t : UInt32) : Prop :=
  ∀ j, done = j + 1 → t.toBitVec = Sm3.rotatedConstant j

def cfConstant (j : Nat) (t : UInt32) : UInt32 :=
  if j = 0 then sm3T1 else if j = 16 then sm3Rotl32 sm3T2 16 else sm3Rotl32 t 1

theorem cfConstant_eq {j : Nat} {t : UInt32} (running : RunningConstant j t) :
    (cfConstant j t).toBitVec = Sm3.rotatedConstant j := by
  rw [cfConstant]
  cases j with
  | zero =>
      rw [if_pos rfl]
      decide
  | succ j =>
      rw [if_neg (by omega)]
      by_cases base : j + 1 = 16
      · rw [if_pos base, base]
        decide
      · rw [if_neg base, toBitVec_sm3Rotl32 t (by decide) (by decide), running j rfl]
        exact Sm3.rotatedConstant_succ base

theorem cfRound_t (w : Vector UInt32 68) (w1 : Vector UInt32 64) (j : Nat) (regs : CfRegs) :
    (cfRound w w1 j regs).t = cfConstant j regs.t := rfl

theorem cfRound_registers {block : Bytes 64} {j : Nat} {regs : CfRegs} (inside : j < 64)
    (running : RunningConstant j regs.t) :
    (cfRound (biToW (blockWords block)) (wToW1 (biToW (blockWords block))) j regs).registers =
      Sm3.round block j regs.registers := by
  have a12 : (sm3Rotl32 regs.a 12).toBitVec = regs.a.toBitVec.rotateLeft 12 :=
    toBitVec_sm3Rotl32 regs.a (by decide) (by decide)
  have ss1 : (sm3Rotl32 (sm3Rotl32 regs.a 12 + regs.e + cfConstant j regs.t) 7).toBitVec =
      (regs.a.toBitVec.rotateLeft 12 + regs.e.toBitVec + Sm3.rotatedConstant j).rotateLeft 7 := by
    rw [toBitVec_sm3Rotl32 _ (by decide) (by decide), UInt32.toBitVec_add, UInt32.toBitVec_add,
      a12, cfConstant_eq running]
    rfl
  have tt1 : ((if j ≤ 15 then sm3Ff0 regs.a regs.b regs.c else sm3Ff1 regs.a regs.b regs.c) +
        regs.d + (sm3Rotl32 (sm3Rotl32 regs.a 12 + regs.e + cfConstant j regs.t) 7 ^^^
          sm3Rotl32 regs.a 12) + (wToW1 (biToW (blockWords block)))[j]!).toBitVec =
      (Sm3.round block j regs.registers).a := by
    rw [UInt32.toBitVec_add, UInt32.toBitVec_add, UInt32.toBitVec_add, toBitVec_ff,
      UInt32.toBitVec_xor, ss1, a12, wToW1_eq block inside]
    rfl
  have tt2 : (sm3P0 ((if j ≤ 15 then sm3Gg0 regs.e regs.f regs.g
        else sm3Gg1 regs.e regs.f regs.g) + regs.h +
          sm3Rotl32 (sm3Rotl32 regs.a 12 + regs.e + cfConstant j regs.t) 7 +
            (biToW (blockWords block))[j]!)).toBitVec =
      (Sm3.round block j regs.registers).e := by
    rw [toBitVec_sm3P0, UInt32.toBitVec_add, UInt32.toBitVec_add, UInt32.toBitVec_add, toBitVec_gg,
      ss1, biToW_eq block (by omega)]
    rfl
  have b9 : (sm3Rotl32 regs.b 9).toBitVec = regs.b.toBitVec.rotateLeft 9 :=
    toBitVec_sm3Rotl32 regs.b (by decide) (by decide)
  have f19 : (sm3Rotl32 regs.f 19).toBitVec = regs.f.toBitVec.rotateLeft 19 :=
    toBitVec_sm3Rotl32 regs.f (by decide) (by decide)
  apply Sm3.Registers.ext
  · exact tt1
  · rfl
  · exact b9
  · rfl
  · exact tt2
  · rfl
  · exact f19
  · rfl

/-- After any number of rounds the registers are the standard's, and the running
constant is the one last used. -/
theorem cfRounds_eq (block : Bytes 64) (v : CfRegs) {done : Nat} (bound : done ≤ 64) :
    (forRange 0 done
      (cfRound (biToW (blockWords block)) (wToW1 (biToW (blockWords block)))) v).registers =
        forRange 0 done (Sm3.round block) v.registers := by
  refine (forRange_invariant
    (fun done (regs : CfRegs) => regs.registers = forRange 0 done (Sm3.round block) v.registers ∧
      RunningConstant done regs.t) ?_ done ?_).1
  · exact ⟨rfl, fun j notStarted => by cases notStarted⟩
  · rintro round inside regs ⟨equal, running⟩
    rw [Nat.zero_add]
    refine ⟨?_, ?_⟩
    · rw [cfRound_registers (by omega) running, forRange_succ, Nat.zero_add, equal]
    · rintro j ⟨⟩
      rw [cfRound_t]
      exact cfConstant_eq running

theorem chainingRegisters_eq (v : Vector UInt32 8) :
    chainingRegisters v = CfRegs.registers
      { a := v[0]!, b := v[1]!, c := v[2]!, d := v[3]!, e := v[4]!, f := v[5]!, g := v[6]!,
        h := v[7]!, t := sm3T1 } := rfl

theorem compressBlock_standard (block : Bytes 64) (v : Vector UInt32 8) :
    chainingRegisters (compressBlock block v) = Sm3.compress (chainingRegisters v) block := by
  rw [Sm3.compress, chainingRegisters_eq v, ← cfRounds_eq block _ (le_refl 64)]
  rfl

/-- For every chaining value and block, `SM3_compress` leaves the standard's `CF(V, B)`. -/
theorem sm3Compress_standard (md : Sm3State) :
    chainingRegisters (sm3Compress md).state = Sm3.compress (chainingRegisters md.state) md.buf :=
  compressBlock_standard md.buf md.state

theorem compressBlocks_standard (blocks : List (Bytes 64)) (v : Vector UInt32 8) :
    chainingRegisters (compressBlocks blocks v) =
      blocks.foldl Sm3.compress (chainingRegisters v) := by
  induction blocks generalizing v with
  | nil => rfl
  | cons block blocks induction =>
      rw [List.foldl_cons, ← compressBlock_standard, ← induction]
      rfl

theorem sm3Process_standard (md : Sm3State) (bytes : List UInt8) :
    chainingRegisters (sm3Process md bytes).state =
      (sm3ProcessBlocks md bytes).foldl Sm3.compress (chainingRegisters md.state) := by
  rw [sm3Process_state, compressBlocks_standard]

end Penglai.Gm
