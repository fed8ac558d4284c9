import Mathlib.Data.ZMod.Basic
import Mathlib.Tactic

namespace Penglai

/-! # Montgomery residues

Modulo an odd number, a power of the number base can be divided by. A residue `a` is
stored as `a` times that power, and the product of two stored residues is divided by
the power once to give the stored product. The division only takes adding a multiple
of the modulus that makes the low digits vanish. -/

/-! ## The reduction -/

/-- The multiple of the modulus that makes the lowest digit vanish. -/
theorem digit_vanishes {radix ndash modulus : Nat} (inverse : radix ∣ ndash * modulus + 1)
    (word : Nat) : radix ∣ word + ndash * word % radix * modulus := by
  have whole : radix ∣ word + ndash * word * modulus := by
    have split : word + ndash * word * modulus = word * (ndash * modulus + 1) := by ring
    rw [split]
    exact inverse.mul_left word
  have same : word + ndash * word % radix * modulus ≡ word + ndash * word * modulus [MOD radix] :=
    Nat.ModEq.add_left _ ((Nat.mod_modEq _ _).mul_right _)
  exact same.dvd_iff (Nat.dvd_refl radix) |>.mpr whole

variable {modulus power : Nat}

theorem quotient_lt {x quotient t : Nat} (total : power * t = x + quotient * modulus)
    (small : x < modulus * power) (bound : quotient < power) : t < 2 * modulus := by
  have scaled : quotient * modulus ≤ power * modulus := Nat.mul_le_mul_right _ bound.le
  have less : power * t < power * (2 * modulus) := by
    calc power * t = x + quotient * modulus := total
      _ < modulus * power + power * modulus := Nat.add_lt_add_of_lt_of_le small scaled
      _ = power * (2 * modulus) := by ring
  exact Nat.lt_of_mul_lt_mul_left less

theorem cast_quotient {x quotient t : Nat} (total : power * t = x + quotient * modulus) :
    (t * power : ZMod modulus) = x := by
  have cast : ((power * t : Nat) : ZMod modulus) = ((x + quotient * modulus : Nat) : ZMod modulus) :=
    congrArg _ total
  push_cast at cast
  rw [mul_comm, cast, ZMod.natCast_self, mul_zero, add_zero]

theorem reduce_once {t : Nat} (bound : t < 2 * modulus) :
    (if modulus ≤ t then t - modulus else t) < modulus ∧
      ((if modulus ≤ t then t - modulus else t : Nat) : ZMod modulus) = t := by
  split
  · rename_i le
    refine ⟨by omega, ?_⟩
    rw [Nat.cast_sub le, ZMod.natCast_self, sub_zero]
  · exact ⟨by omega, rfl⟩

/-! ## Stored residues -/

/-- How a residue is stored. -/
def residue (modulus power : Nat) (a : ZMod modulus) : Nat := (a * power).val

@[simp] theorem residue_zero : residue modulus power 0 = 0 := by
  rw [residue, zero_mul, ZMod.val_zero]

theorem eq_residue {r : Nat} (bound : r < modulus) {a : ZMod modulus}
    (cast : (r : ZMod modulus) = a * power) : r = residue modulus power a := by
  rw [residue, ← cast, ZMod.val_cast_of_lt bound]

theorem isUnit_power (coprime : power.Coprime modulus) : IsUnit (power : ZMod modulus) :=
  (ZMod.isUnit_iff_coprime power modulus).mpr coprime

theorem eq_of_mul_power (coprime : power.Coprime modulus) {r s : Nat} (rBound : r < modulus)
    (sBound : s < modulus) (cast : (r * power : ZMod modulus) = s * power) : r = s := by
  have same := (isUnit_power coprime).mul_right_cancel cast
  rwa [ZMod.natCast_eq_natCast_iff', Nat.mod_eq_of_lt rBound, Nat.mod_eq_of_lt sBound] at same

section Positive

variable [NeZero modulus]

theorem residue_lt (power : Nat) (a : ZMod modulus) : residue modulus power a < modulus := ZMod.val_lt _

@[simp] theorem cast_residue (power : Nat) (a : ZMod modulus) :
    (residue modulus power a : ZMod modulus) = a * power := ZMod.natCast_zmod_val _

theorem residue_inj (coprime : power.Coprime modulus) {a b : ZMod modulus} :
    residue modulus power a = residue modulus power b ↔ a = b := by
  constructor
  · intro equal
    have cast := congrArg (Nat.cast (R := ZMod modulus)) equal
    rw [cast_residue, cast_residue] at cast
    exact (isUnit_power coprime).mul_right_cancel cast
  · exact congrArg _

theorem residue_eq_zero (coprime : power.Coprime modulus) {a : ZMod modulus} :
    residue modulus power a = 0 ↔ a = 0 := by
  rw [← residue_inj coprime, residue_zero]

end Positive

end Penglai
