import Mathlib

namespace Penglai

/-! # Long division

A digit of a quotient is guessed from the upper two digits of the divisor and the
upper three of the dividend. The guess is never too small and at most one too
large; the number of digits does not matter. -/

/-- The upper two digits `lead` of a divisor and the upper three digits `head` of a
dividend that is less than `radix` times the divisor. -/
structure Leading (radix scale divisor dividend lead head : Nat) : Prop where
  leadLow : lead * scale ≤ divisor
  leadHigh : divisor < (lead + 1) * scale
  headLow : head * scale ≤ dividend
  headHigh : dividend < (head + 1) * scale
  twoDigits : radix ≤ lead
  oneDigit : dividend < divisor * radix

section Guess

variable {radix scale divisor dividend lead head : Nat}

def digitGuess (radix lead head : Nat) : Nat := min (radix - 1) (head / lead)

theorem Leading.positive (leading : Leading radix scale divisor dividend lead head) :
    0 < divisor := by
  rcases Nat.eq_zero_or_pos divisor with zero | positive
  · have := leading.oneDigit
    rw [zero, zero_mul] at this
    exact absurd this (Nat.not_lt_zero _)
  · exact positive

theorem Leading.head_lt (leading : Leading radix scale divisor dividend lead head) :
    head < (lead + 1) * radix := by
  have chain : head * scale < (lead + 1) * radix * scale :=
    calc head * scale ≤ dividend := leading.headLow
      _ < divisor * radix := leading.oneDigit
      _ ≤ (lead + 1) * scale * radix := Nat.mul_le_mul_right _ leading.leadHigh.le
      _ = (lead + 1) * radix * scale := by ring
  exact Nat.lt_of_mul_lt_mul_right chain

theorem Leading.quotient_mul_le (leading : Leading radix scale divisor dividend lead head) :
    dividend / divisor * lead ≤ head := by
  have chain : dividend / divisor * lead * scale < (head + 1) * scale :=
    calc dividend / divisor * lead * scale
        = dividend / divisor * (lead * scale) := mul_assoc _ _ _
      _ ≤ dividend / divisor * divisor := Nat.mul_le_mul_left _ leading.leadLow
      _ ≤ dividend := Nat.div_mul_le_self _ _
      _ < (head + 1) * scale := leading.headHigh
  exact Nat.lt_succ_iff.mp (Nat.lt_of_mul_lt_mul_right chain)

theorem Leading.quotient_lt (leading : Leading radix scale divisor dividend lead head) :
    dividend / divisor < radix :=
  Nat.div_lt_of_lt_mul leading.oneDigit

theorem Leading.quotient_le_guess (leading : Leading radix scale divisor dividend lead head)
    (two : 1 < radix) : dividend / divisor ≤ digitGuess radix lead head := by
  have upper := leading.quotient_lt
  apply Nat.le_min.mpr ⟨by omega, ?_⟩
  rw [Nat.le_div_iff_mul_le (by have := leading.twoDigits; omega)]
  exact leading.quotient_mul_le

theorem Leading.guess_le_quotient (leading : Leading radix scale divisor dividend lead head) :
    digitGuess radix lead head ≤ dividend / divisor + 1 := by
  by_contra tooLarge
  have positive := leading.positive
  have guess : (dividend / divisor + 2) * lead ≤ head := by
    calc (dividend / divisor + 2) * lead
        ≤ head / lead * lead := Nat.mul_le_mul_right _
          ((Nat.not_le.mp tooLarge).trans_le (Nat.min_le_right _ _))
      _ ≤ head := Nat.div_mul_le_self _ _
  have chain : (dividend / divisor + 2) * lead * scale <
      (dividend / divisor + 1) * (lead + 1) * scale :=
    calc (dividend / divisor + 2) * lead * scale ≤ head * scale := Nat.mul_le_mul_right _ guess
      _ ≤ dividend := leading.headLow
      _ < (dividend / divisor + 1) * divisor := by
          rw [Nat.mul_comm]
          exact Nat.lt_mul_div_succ dividend positive
      _ ≤ (dividend / divisor + 1) * ((lead + 1) * scale) :=
          Nat.mul_le_mul_left _ leading.leadHigh.le
      _ = (dividend / divisor + 1) * (lead + 1) * scale := (mul_assoc _ _ _).symm
  have := Nat.lt_of_mul_lt_mul_right chain
  have := leading.quotient_lt
  have := leading.twoDigits
  nlinarith

end Guess

/-! ## Refining a guess

A guess from one digit of the divisor, of which `rest` is the remainder, is tested
against the second digit of the divisor and the third of the dividend. -/

section Refinement

variable {radix first second upper third guess rest : Nat}

theorem le_digitGuess (positive : 0 < first * radix) (digit : guess < radix)
    (parts : guess * first + rest = upper) (fits : guess * second ≤ rest * radix + third) :
    guess ≤ digitGuess radix (first * radix + second) (upper * radix + third) := by
  apply Nat.le_min.mpr ⟨by omega, ?_⟩
  rw [Nat.le_div_iff_mul_le (by omega), ← parts]
  calc guess * (first * radix + second)
      = guess * first * radix + guess * second := by ring
    _ ≤ guess * first * radix + (rest * radix + third) := Nat.add_le_add_left fits _
    _ = (guess * first + rest) * radix + third := by ring

theorem digitGuess_lt (positive : 0 < first * radix) (parts : guess * first + rest = upper)
    (exceeds : rest * radix + third < guess * second) :
    digitGuess radix (first * radix + second) (upper * radix + third) < guess := by
  apply Nat.lt_of_le_of_lt (Nat.min_le_right _ _)
  rw [Nat.div_lt_iff_lt_mul (by omega), ← parts]
  calc (guess * first + rest) * radix + third
      = guess * first * radix + (rest * radix + third) := by ring
    _ < guess * first * radix + guess * second := Nat.add_lt_add_left exceeds _
    _ = guess * (first * radix + second) := by ring

theorem digitGuess_le (positive : 0 < first * radix) (digit : third < radix) :
    digitGuess radix (first * radix + second) (upper * radix + third) ≤ upper / first := by
  have some : 0 < first := Nat.pos_of_mul_pos_right positive
  apply (Nat.min_le_right _ _).trans
  calc (upper * radix + third) / (first * radix + second)
      ≤ (upper * radix + third) / (first * radix) :=
        Nat.div_le_div_left (Nat.le_add_right _ _) positive
    _ = (upper * radix + third) / radix / first := by
        rw [Nat.mul_comm first, Nat.div_div_eq_div_mul]
    _ = upper / first := by
        rw [Nat.mul_comm upper, Nat.mul_add_div (by omega), Nat.div_eq_of_lt digit, add_zero]

end Refinement

/-- The multiple of the divisor that a guess takes from the dividend is either right, or
one multiple too many. -/
theorem guess_cases {divisor dividend guess : Nat} (low : dividend / divisor ≤ guess)
    (high : guess ≤ dividend / divisor + 1) (positive : 0 < divisor) :
    guess = dividend / divisor ∧ guess * divisor ≤ dividend ∨
      guess = dividend / divisor + 1 ∧ dividend < guess * divisor := by
  rcases Nat.lt_or_ge (dividend / divisor) guess with more | same
  · have one : guess = dividend / divisor + 1 := by omega
    have beyond := Nat.lt_mul_div_succ dividend positive
    rw [Nat.mul_comm, ← one] at beyond
    exact Or.inr ⟨one, beyond⟩
  · have exact' : guess = dividend / divisor := by omega
    exact Or.inl ⟨exact', exact' ▸ Nat.div_mul_le_self _ _⟩

/-! ## Partial subtractions

The lower digits of the dividend, worth `lower`, lose the product and become `rest`, with a
borrow from the leading digit `top`. -/

section Subtraction

variable {power lower rest borrow product : Nat} (top : Nat)

theorem lt_borrow_iff (balance : lower + power * borrow = rest + product) (small : rest < power) :
    top < borrow ↔ lower + power * top < product := by
  constructor
  · intro short
    have : power * (top + 1) ≤ power * borrow := Nat.mul_le_mul_left _ short
    rw [mul_add, mul_one] at this
    omega
  · intro exceeds
    by_contra enough
    have : power * borrow ≤ power * top := Nat.mul_le_mul_left _ (Nat.not_lt.mp enough)
    omega

theorem subtracted_total (balance : lower + power * borrow = rest + product)
    (enough : borrow ≤ top) : rest + power * (top - borrow) = lower + power * top - product := by
  have : power * borrow ≤ power * top := Nat.mul_le_mul_left _ enough
  rw [Nat.mul_sub]
  omega

/-- Adding the divisor back undoes one multiple too many; the last carry is lost with the
borrow. -/
theorem compensated_total {divisor again carry : Nat}
    (balance : lower + power * borrow = rest + product)
    (back : again + power * carry = divisor + rest) (bit : carry ≤ 1) (fits : again < power)
    (exceeds : lower + power * top < product) (once : product ≤ lower + power * top + divisor)
    (smaller : lower + power * top + divisor - product < power) :
    again = lower + power * top + divisor - product := by
  have borrowed : top < borrow := by
    by_contra enough
    have : power * borrow ≤ power * top := Nat.mul_le_mul_left _ (Nat.not_lt.mp enough)
    omega
  rcases Nat.exists_eq_add_of_lt borrowed with ⟨excess, rfl⟩
  rw [show top + excess + 1 = top + (excess + 1) by omega, mul_add power top, mul_add power excess,
    mul_one] at balance
  interval_cases carry
  · omega
  · have : power * excess = 0 ∨ power ≤ power * excess := by
      rcases Nat.eq_zero_or_pos excess with none | some
      · exact Or.inl (by rw [none, mul_zero])
      · exact Or.inr (Nat.le_mul_of_pos_right _ some)
    omega

end Subtraction

/-! ## Normalisation -/

/-- The factor that makes the leading digit large keeps the number of digits, and the
digit becomes at least half of the radix. -/
theorem normalising_factor {radix top : Nat} (some : 0 < top) (digit : top < radix) :
    radix / (top + 1) * (top + 1) ≤ radix ∧ radix ≤ 2 * (radix / (top + 1) * top) + 1 := by
  refine ⟨Nat.div_mul_le_self _ _, ?_⟩
  have division := Nat.div_add_mod radix (top + 1)
  have small := Nat.mod_lt radix (Nat.succ_pos top)
  generalize radix / (top + 1) = factor, radix % (top + 1) = rest at division small ⊢
  have one : 1 ≤ factor := by
    rcases Nat.eq_zero_or_pos factor with zero | positive
    · rw [zero, mul_zero, zero_add] at division
      omega
    · exact positive
  rw [← division]
  nlinarith

end Penglai
