import Mathlib.Tactic

namespace Penglai

/-! # Euclid's algorithm on leading digits

Two long numbers are divided by one another with only their leading digits at hand.
The leading digits `u` of a number `x` stand for an interval: in units of `scale`, the
number is at least `u - low` and less than `u + high`. As long as both ends of the two
intervals have the same quotient, that is the quotient of the numbers, and a division
with remainder turns the intervals into those of the divisor and of the remainder. -/

/-- What the leading digits tell about a number. -/
structure Approximates (scale u low high x : Nat) : Prop where
  margin : low ≤ u
  lower : scale * u ≤ x + scale * low
  upper : x < scale * (u + high)

theorem approximates_div {scale : Nat} (positive : 0 < scale) (x : Nat) :
    Approximates scale (x / scale) 0 1 x where
  margin := Nat.zero_le _
  lower := Nat.mul_div_le x scale
  upper := Nat.lt_mul_div_succ x positive

/-- Both ends of two intervals have the same quotient. -/
structure SameQuotient (u uLow uHigh v vLow vHigh q : Nat) : Prop where
  apart : vLow < v
  most : u + uHigh < (q + 1) * (v - vLow)
  least : q * (v + vHigh) ≤ u - uLow

section Division

variable {scale u uLow uHigh x v vLow vHigh y q : Nat}

theorem sameQuotient_of_div (apart : vLow < v) (most : (u + uHigh) / (v - vLow) = q)
    (least : (u - uLow) / (v + vHigh) = q) : SameQuotient u uLow uHigh v vLow vHigh q where
  apart := apart
  most := by
    rw [← most, Nat.mul_comm]
    exact Nat.lt_mul_div_succ _ (Nat.sub_pos_of_lt apart)
  least := by
    rw [← least]
    exact Nat.div_mul_le_self _ _

theorem gap_of_ends (ends : SameQuotient u uLow uHigh v vLow vHigh q) :
    u - q * v + (uHigh + q * vLow) < v - vLow := by
  have least := ends.least
  have most := ends.most
  have apart := ends.apart
  rw [Nat.mul_add] at least
  have split : (q + 1) * (v - vLow) = q * v - q * vLow + (v - vLow) := by
    rw [Nat.add_mul, Nat.one_mul, Nat.mul_sub]
  have le := Nat.mul_le_mul_left q apart.le
  omega

variable (xIn : Approximates scale u uLow uHigh x) (yIn : Approximates scale v vLow vHigh y)
  (ends : SameQuotient u uLow uHigh v vLow vHigh q)

include xIn yIn ends

theorem quotient_le : q * y ≤ x := by
  have lower : scale * (u - uLow) ≤ x := by
    rw [Nat.mul_sub, Nat.sub_le_iff_le_add]
    exact xIn.lower
  calc q * y ≤ q * (scale * (v + vHigh)) := Nat.mul_le_mul_left q yIn.upper.le
    _ = scale * (q * (v + vHigh)) := by ring
    _ ≤ scale * (u - uLow) := Nat.mul_le_mul_left scale ends.least
    _ ≤ x := lower

theorem lt_quotient_succ : x < (q + 1) * y := by
  have lower : scale * (v - vLow) ≤ y := by
    rw [Nat.mul_sub, Nat.sub_le_iff_le_add]
    exact yIn.lower
  calc x < scale * (u + uHigh) := xIn.upper
    _ ≤ scale * ((q + 1) * (v - vLow)) := Nat.mul_le_mul_left scale ends.most.le
    _ = (q + 1) * (scale * (v - vLow)) := by ring
    _ ≤ (q + 1) * y := Nat.mul_le_mul_left (q + 1) lower

theorem quotient_of_ends : x / y = q :=
  Nat.div_eq_of_lt_le (quotient_le xIn yIn ends) (lt_quotient_succ xIn yIn ends)

theorem remainder_of_ends :
    Approximates scale (u - q * v) (uLow + q * vHigh) (uHigh + q * vLow) (x % y) := by
  have le := quotient_le xIn yIn ends
  have quotient := quotient_of_ends xIn yIn ends
  have least := ends.least
  have uMargin := xIn.margin
  have vMargin := yIn.margin
  rw [Nat.mul_add] at least
  have whole : u = q * v + (u - q * v) := by omega
  have division : x = q * y + x % y := by
    rw [← quotient, Nat.mul_comm]
    exact (Nat.div_add_mod x y).symm
  generalize u - q * v = rest at whole ⊢
  generalize x % y = r at division ⊢
  subst whole division
  have xLower := xIn.lower
  have xUpper := xIn.upper
  have yLower := Nat.mul_le_mul_left q yIn.lower
  have yUpper := Nat.mul_le_mul_left q yIn.upper.le
  constructor
  · omega
  · nlinarith
  · nlinarith

end Division

end Penglai
