import Penglai.Foundation.Bytes
import Penglai.Foundation.Loop

namespace Penglai.Sm3

/-! # The SM3 compression function

As the standard GM/T 0004 defines it, on words of 32 bits: every rotation amount,
index and constant is written as there. -/

abbrev Word := BitVec 32

def p0 (x : Word) : Word := x ^^^ x.rotateLeft 9 ^^^ x.rotateLeft 17

def p1 (x : Word) : Word := x ^^^ x.rotateLeft 15 ^^^ x.rotateLeft 23

def ff (j : Nat) (x y z : Word) : Word :=
  if j < 16 then x ^^^ y ^^^ z else (x &&& y) ||| (x &&& z) ||| (y &&& z)

def gg (j : Nat) (x y z : Word) : Word :=
  if j < 16 then x ^^^ y ^^^ z else (x &&& y) ||| (~~~x &&& z)

def constant (j : Nat) : Word := if j < 16 then 0x79CC4519 else 0x7A879D8A

/-- `T_j <<< (j mod 32)`. -/
def rotatedConstant (j : Nat) : Word := (constant j).rotateLeft (j % 32)

/-! ## Message expansion -/

def messageWord (block : Bytes 64) (i : Nat) : Word :=
  block[4 * i]!.toBitVec ++ block[4 * i + 1]!.toBitVec ++ block[4 * i + 2]!.toBitVec ++
    block[4 * i + 3]!.toBitVec

def expanded (block : Bytes 64) (j : Nat) : Word :=
  if j < 16 then messageWord block j
  else
    p1 (expanded block (j - 16) ^^^ expanded block (j - 9) ^^^
        (expanded block (j - 3)).rotateLeft 15) ^^^
      (expanded block (j - 13)).rotateLeft 7 ^^^ expanded block (j - 6)

def expanded' (block : Bytes 64) (j : Nat) : Word := expanded block j ^^^ expanded block (j + 4)

theorem expanded_of_lt {block : Bytes 64} {j : Nat} (inside : j < 16) :
    expanded block j = messageWord block j := by
  rw [expanded, if_pos inside]

theorem expanded_of_le {block : Bytes 64} {j : Nat} (outside : 16 ≤ j) :
    expanded block j =
      p1 (expanded block (j - 16) ^^^ expanded block (j - 9) ^^^
          (expanded block (j - 3)).rotateLeft 15) ^^^
        (expanded block (j - 13)).rotateLeft 7 ^^^ expanded block (j - 6) := by
  rw [expanded, if_neg (by omega)]

/-! ## Rounds -/

@[ext] structure Registers where
  (a b c d e f g h : Word)
  deriving DecidableEq

def Registers.xor (left right : Registers) : Registers where
  a := left.a ^^^ right.a
  b := left.b ^^^ right.b
  c := left.c ^^^ right.c
  d := left.d ^^^ right.d
  e := left.e ^^^ right.e
  f := left.f ^^^ right.f
  g := left.g ^^^ right.g
  h := left.h ^^^ right.h

def round (block : Bytes 64) (j : Nat) (regs : Registers) : Registers :=
  let ss1 := (regs.a.rotateLeft 12 + regs.e + rotatedConstant j).rotateLeft 7
  let ss2 := ss1 ^^^ regs.a.rotateLeft 12
  let tt1 := ff j regs.a regs.b regs.c + regs.d + ss2 + expanded' block j
  let tt2 := gg j regs.e regs.f regs.g + regs.h + ss1 + expanded block j
  { a := tt1, b := regs.a, c := regs.b.rotateLeft 9, d := regs.c,
    e := p0 tt2, f := regs.e, g := regs.f.rotateLeft 19, h := regs.g }

/-- `CF(V, B)`. -/
def compress (v : Registers) (block : Bytes 64) : Registers :=
  (forRange 0 64 (round block) v).xor v

/-! ## Running constants -/

theorem getLsbD_rotateLeft (x : Word) (amount : Nat) {i : Nat} (inside : i < 32) :
    (x.rotateLeft amount).getLsbD i = x.getLsbD ((i + (32 - amount % 32)) % 32) := by
  rw [BitVec.getLsbD_rotateLeft]
  by_cases wraps : i < amount % 32
  · have source : (i + (32 - amount % 32)) % 32 = 32 - amount % 32 + i := by omega
    simp only [wraps, decide_true, cond_true, source]
  · have source : (i + (32 - amount % 32)) % 32 = i - amount % 32 := by omega
    simp only [wraps, decide_false, cond_false, inside, decide_true, Bool.true_and, source]

theorem rotateLeft_rotateLeft (x : Word) (first second : Nat) :
    (x.rotateLeft first).rotateLeft second = x.rotateLeft ((first + second) % 32) := by
  apply BitVec.eq_of_getLsbD_eq
  intro i inside
  have source : ((i + (32 - second % 32)) % 32 + (32 - first % 32)) % 32 =
      (i + (32 - (first + second) % 32 % 32)) % 32 := by omega
  rw [getLsbD_rotateLeft _ _ inside, getLsbD_rotateLeft _ _ (Nat.mod_lt _ (by decide)),
    getLsbD_rotateLeft _ _ inside, source]

/-- Between the two bases the constant of a round is that of the round before,
rotated once more; the rotation amount may run past 31. -/
theorem rotatedConstant_succ {j : Nat} (sameBase : j + 1 ≠ 16) :
    (rotatedConstant j).rotateLeft 1 = rotatedConstant (j + 1) := by
  have base : constant (j + 1) = constant j := by
    rw [constant, constant]
    split_ifs <;> first | rfl | omega
  have amount : (j % 32 + 1) % 32 = (j + 1) % 32 := by omega
  rw [rotatedConstant, rotatedConstant, rotateLeft_rotateLeft, base, amount]

end Penglai.Sm3
