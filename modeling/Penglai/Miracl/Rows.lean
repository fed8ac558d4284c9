import Penglai.Miracl.Big

namespace Penglai.Miracl

/-! # Rows of products

The inner loop of the long multiplication, of the squaring and of the Montgomery
reduction: the words of one number, multiplied by a single word, are added to the
words of another from some place on. -/

def mulWords (x y carry addend : UInt32) : UInt32 × UInt32 :=
  let dble := x.toUInt64 * y.toUInt64 + carry.toUInt64 + addend.toUInt64
  (dble.toUInt32, (dble >>> 32).toUInt32)

theorem mulWords_balance (x y carry addend : UInt32) :
    (mulWords x y carry addend).1.toNat + wordBase * (mulWords x y carry addend).2.toNat =
      x.toNat * y.toNat + carry.toNat + addend.toNat := by
  have xBound := x.toNat_lt
  have yBound := y.toNat_lt
  have carryBound := carry.toNat_lt
  have addendBound := addend.toNat_lt
  have product : x.toNat * y.toNat ≤ (2 ^ 32 - 1) * (2 ^ 32 - 1) :=
    Nat.mul_le_mul (by omega) (by omega)
  have dble : (x.toUInt64 * y.toUInt64 + carry.toUInt64 + addend.toUInt64).toNat =
      x.toNat * y.toNat + carry.toNat + addend.toNat := by
    simp only [UInt64.toNat_add, UInt64.toNat_mul, UInt32.toNat_toUInt64]
    omega
  have low : (mulWords x y carry addend).1.toNat =
      (x.toNat * y.toNat + carry.toNat + addend.toNat) % 2 ^ 32 := by
    rw [← dble]
    exact UInt64.toNat_toUInt32 _
  have high : (mulWords x y carry addend).2.toNat =
      (x.toNat * y.toNat + carry.toNat + addend.toNat) / 2 ^ 32 := by
    have shifted : (32 : UInt64).toNat % 64 = 32 := rfl
    rw [← dble, mulWords, UInt64.toNat_toUInt32, UInt64.toNat_shiftRight, shifted,
      Nat.shiftRight_eq_div_pow, Nat.mod_eq_of_lt]
    omega
  rw [low, high, wordBase, Nat.mod_add_div]

namespace Big

theorem below_append (w : Nat → UInt32) (low high : Nat) :
    below w (low + high) = below w low + wordBase ^ low * below (fun i => w (low + i)) high :=
  numeral_append low high

theorem below_update_above {w : Nat → UInt32} {place count : Nat} (above : count ≤ place)
    (word : UInt32) : below (Function.update w place word) count = below w count :=
  below_congr fun i inside => Function.update_of_ne (Nat.ne_of_lt (by omega)) _ _

end Big

theorem swept_row (column : Nat → UInt32 → UInt32 → UInt32 × UInt32) (offset count : Nat)
    (wg : Nat → UInt32) :
    Swept (offset + ·) (fun j carry => column j (wg (offset + j)) carry) wg 0 count
      (forRange 0 count
        (sweepStep (offset + ·) fun wg j carry => column j (wg (offset + j)) carry) (wg, 0)) := by
  apply swept_forRange
  · intro j _ cells unwritten
    have here := unwritten (offset + j) fun earlier before =>
      Nat.ne_of_lt (Nat.add_lt_add_left before offset)
    funext carry
    simp only [here]
  · exact fun j _ earlier before => Nat.ne_of_lt (Nat.add_lt_add_left before offset)

/-- Only the words from `offset` to `offset + count` have changed. -/
structure Framed (offset count : Nat) (wg final : Nat → UInt32) : Prop where
  front : ∀ i < offset, final i = wg i
  behind : ∀ i, offset + count ≤ i → final i = wg i

theorem framed_of_swept {plain : Nat → UInt32 → UInt32 × UInt32} {offset count : Nat}
    {wg : Nat → UInt32} {row : (Nat → UInt32) × UInt32}
    (swept : Swept (offset + ·) plain wg 0 count row) : Framed offset count wg row.1 where
  front := fun i before => swept.untouched i fun _ _ =>
    Nat.ne_of_gt (before.trans_le (Nat.le_add_right offset _))
  behind := fun i after => swept.untouched i fun _ inside =>
    Nat.ne_of_lt ((Nat.add_lt_add_left inside offset).trans_le after)

/-- `for (j = 0; j < count; j++)` of a row: add `m` times the words `y` to the words `wg`
from `offset` on. The last carry is returned. -/
def mulRow (m : UInt32) (y : Nat → UInt32) (offset count : Nat) (wg : Nat → UInt32) :
    (Nat → UInt32) × UInt32 :=
  forRange 0 count
    (sweepStep (offset + ·) fun wg j carry => mulWords m (y j) carry (wg (offset + j))) (wg, 0)

structure RowAdded (m : UInt32) (y : Nat → UInt32) (offset count : Nat) (wg : Nat → UInt32)
    (row : (Nat → UInt32) × UInt32) : Prop extends Framed offset count wg row.1 where
  total : Big.below (fun j => row.1 (offset + j)) count + wordBase ^ count * row.2.toNat =
    Big.below (fun j => wg (offset + j)) count + m.toNat * Big.below y count

theorem rowAdded (m : UInt32) (y : Nat → UInt32) (offset count : Nat) (wg : Nat → UInt32) :
    RowAdded m y offset count wg (mulRow m y offset count wg) := by
  have swept := swept_row (fun j word carry => mulWords m (y j) carry word) offset count wg
  constructor
  · exact framed_of_swept swept
  · have balance := numeral_balance wordBase
      (fun j => ((mulRow m y offset count wg).1 (offset + j)).toNat)
      (fun j => (wg (offset + j)).toNat + m.toNat * (y j).toNat)
      (fun j => (carryInto
        (fun j carry => mulWords m (y j) carry (wg (offset + j))) 0 j).toNat) (fun _ => 0)
      (fun j (inside : j < count) => by
        have column := mulWords_balance m (y j)
          (carryInto (fun j carry => mulWords m (y j) carry (wg (offset + j))) 0 j)
          (wg (offset + j))
        have written := swept.written j inside
        simp only [mulRow, written, carryInto_succ, digitOf]
        omega)
    rw [numeral_add, numeral_mul] at balance
    rw [show (mulRow m y offset count wg).2 = _ from swept.carry]
    simpa [Big.below] using balance

theorem RowAdded.stored {m : UInt32} {y wg : Nat → UInt32} {offset count : Nat}
    {row : (Nat → UInt32) × UInt32} (added : RowAdded m y offset count wg row) :
    Big.below (Function.update row.1 (offset + count) row.2) (offset + count + 1) =
      Big.below wg (offset + count) + wordBase ^ offset * (m.toNat * Big.below y count) := by
  have front : Big.below row.1 offset = Big.below wg offset := Big.below_congr added.front
  have total := congrArg (wordBase ^ offset * ·) added.total
  simp only [mul_add] at total
  rw [Big.below_succ, Function.update_self, Big.below_update_above (Nat.le_refl _),
    Big.below_append, Big.below_append wg, front, pow_add]
  linarith

end Penglai.Miracl
