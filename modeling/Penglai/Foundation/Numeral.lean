import Mathlib

namespace Penglai

/-! # Positional numerals

The value of the first `count` digits of a numeral, least significant digit
first, and the one law behind the column loops of multi-precision arithmetic: a
loop whose columns balance, with what each column passes on to the next, balances
as a whole. -/

def numeral (radix : Nat) (digit : Nat → Nat) (count : Nat) : Nat :=
  ∑ i ∈ Finset.range count, digit i * radix ^ i

section Numeral

variable {radix : Nat} {digit other : Nat → Nat} {count : Nat}

@[simp] theorem numeral_zero : numeral radix digit 0 = 0 := rfl

theorem numeral_succ : numeral radix digit (count + 1) =
    numeral radix digit count + digit count * radix ^ count :=
  Finset.sum_range_succ _ _

theorem numeral_congr (same : ∀ i < count, digit i = other i) :
    numeral radix digit count = numeral radix other count :=
  Finset.sum_congr rfl fun i member => by rw [same i (Finset.mem_range.mp member)]

theorem numeral_append (low high : Nat) : numeral radix digit (low + high) =
    numeral radix digit low + radix ^ low * numeral radix (fun i => digit (low + i)) high := by
  simp only [numeral, Finset.sum_range_add, Finset.mul_sum]
  congr 1
  apply Finset.sum_congr rfl
  intro i _
  rw [pow_add]
  ring

theorem numeral_add : numeral radix (fun i => digit i + other i) count =
    numeral radix digit count + numeral radix other count := by
  simp only [numeral, add_mul, Finset.sum_add_distrib]

theorem numeral_mul (factor : Nat) : numeral radix (fun i => factor * digit i) count =
    factor * numeral radix digit count := by
  simp only [numeral, mul_assoc, Finset.mul_sum]

theorem numeral_eq_zero (zeros : ∀ i < count, digit i = 0) : numeral radix digit count = 0 :=
  Finset.sum_eq_zero fun i member => by rw [zeros i (Finset.mem_range.mp member), zero_mul]

theorem numeral_extend {shorter : Nat} (le : shorter ≤ count)
    (zeros : ∀ i, shorter ≤ i → i < count → digit i = 0) :
    numeral radix digit count = numeral radix digit shorter := by
  rcases Nat.exists_eq_add_of_le le with ⟨extra, rfl⟩
  rw [numeral_append, numeral_eq_zero fun i bound => zeros (shorter + i) (by omega) (by omega),
    mul_zero, add_zero]

theorem numeral_lt (digits : ∀ i < count, digit i < radix) :
    numeral radix digit count < radix ^ count := by
  induction count with
  | zero => simp
  | succ count induction =>
      have lower := induction fun i bound => digits i (by omega)
      have top : digit count + 1 ≤ radix := digits count (by omega)
      calc numeral radix digit (count + 1)
          = numeral radix digit count + digit count * radix ^ count := numeral_succ
        _ < (digit count + 1) * radix ^ count := by rw [add_mul, one_mul]; omega
        _ ≤ radix * radix ^ count := Nat.mul_le_mul_right _ top
        _ = radix ^ (count + 1) := by rw [pow_succ, mul_comm]

theorem pow_le_numeral (top : 0 < digit count) :
    radix ^ count ≤ numeral radix digit (count + 1) := by
  rw [numeral_succ]
  calc radix ^ count = 1 * radix ^ count := (one_mul _).symm
    _ ≤ digit count * radix ^ count := Nat.mul_le_mul_right _ top
    _ ≤ numeral radix digit count + digit count * radix ^ count := Nat.le_add_left _ _

/-- The highest digit in which two numerals differ decides which is the smaller. -/
theorem numeral_lt_of_digit_lt {place : Nat} (inside : place < count)
    (digits : ∀ i < place, digit i < radix) (lower : digit place < other place)
    (same : ∀ i, place < i → i < count → digit i = other i) :
    numeral radix digit count < numeral radix other count := by
  rcases Nat.exists_eq_add_of_le (Nat.succ_le_of_lt inside) with ⟨above, rfl⟩
  rw [Nat.succ_eq_add_one, numeral_append, @numeral_append radix other,
    numeral_congr fun i bound => same (place + 1 + i) (by omega) (by omega),
    numeral_succ, @numeral_succ radix other]
  have below := numeral_lt digits
  have step : (digit place + 1) * radix ^ place ≤ other place * radix ^ place :=
    Nat.mul_le_mul_right _ lower
  rw [add_mul, one_mul] at step
  omega

theorem digit_eq_of_numeral_eq (digits : ∀ i < count, digit i < radix)
    (others : ∀ i < count, other i < radix)
    (equal : numeral radix digit count = numeral radix other count) :
    ∀ i < count, digit i = other i := by
  induction count with
  | zero => intro i bound; omega
  | succ count induction =>
      have top : digit count = other count := by
        rcases Nat.lt_trichotomy (digit count) (other count) with less | same | more
        · exact absurd equal (numeral_lt_of_digit_lt (Nat.lt_succ_self count)
            (fun i bound => digits i (by omega)) less (fun i above bound => by omega)).ne
        · exact same
        · exact absurd equal (numeral_lt_of_digit_lt (Nat.lt_succ_self count)
            (fun i bound => others i (by omega)) more (fun i above bound => by omega)).ne'
      rw [numeral_succ, numeral_succ, top, Nat.add_right_cancel_iff] at equal
      intro i bound
      rcases Nat.lt_succ_iff_lt_or_eq.mp bound with below | rfl
      · exact induction (fun i bound => digits i (by omega))
          (fun i bound => others i (by omega)) equal i below
      · exact top

end Numeral

/-! ## Columns -/

/-- Columns that balance, each with what it takes from the column below (`up`, and
`down` on the other side) and what it hands to the column above, balance as a whole.
Carries, borrows and the remainders of a division from the top are all of this form. -/
theorem numeral_balance (radix : Nat) (left right up down : Nat → Nat) {count : Nat}
    (columns : ∀ i < count,
      left i + radix * up (i + 1) + down i = right i + up i + radix * down (i + 1)) :
    numeral radix left count + radix ^ count * up count + down 0 =
      numeral radix right count + up 0 + radix ^ count * down count := by
  induction count with
  | zero => simp
  | succ count induction =>
      have below := induction fun i bound => columns i (by omega)
      have column := congrArg (radix ^ count * ·) (columns count (by omega))
      simp only [mul_add] at column
      rw [numeral_succ, numeral_succ, pow_succ]
      linarith

end Penglai
