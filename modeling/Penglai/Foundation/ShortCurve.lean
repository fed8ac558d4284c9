import Mathlib
import Penglai.Foundation.Pratt

namespace Penglai

/-! # Executable short Weierstrass curves

Affine arithmetic on `y² = x³ + a x + b` over a prime field, computed on natural
residues. `toGroup` sends a valid point to Mathlib's point group of the same
curve; every operation below is proved to be the group operation there. -/

/-- The curve parameters together with the facts that make the point set a
group. -/
structure ShortCurve where
  modulus : Nat
  a : Nat
  b : Nat
  prime : modulus.Prime
  twoLt : 2 < modulus
  discriminant : (4 * a ^ 3 + 27 * b ^ 2) % modulus ≠ 0

inductive EPoint where
  | infinity
  | affine (x y : Nat)
  deriving DecidableEq, Repr

namespace ShortCurve

variable (curve : ShortCurve)

instance : Fact curve.modulus.Prime := ⟨curve.prime⟩

/-! ## Residue arithmetic -/

def neg (x : Nat) : Nat := curve.modulus - x % curve.modulus

def reciprocal (x : Nat) : Nat :=
  powMod curve.modulus (curve.modulus.log2 + 1) x (curve.modulus - 2)

@[simp] theorem cast_mod (x : Nat) :
    ((x % curve.modulus : Nat) : ZMod curve.modulus) = x :=
  ZMod.natCast_mod x curve.modulus

@[simp] theorem cast_neg (x : Nat) : ((curve.neg x : Nat) : ZMod curve.modulus) = -x := by
  have bound : x % curve.modulus ≤ curve.modulus :=
    (Nat.mod_lt x curve.prime.pos).le
  rw [neg, Nat.cast_sub bound, ZMod.natCast_self, zero_sub, cast_mod]

@[simp] theorem cast_reciprocal (x : Nat) :
    ((curve.reciprocal x : Nat) : ZMod curve.modulus) = (x : ZMod curve.modulus)⁻¹ := by
  have exponentBound : curve.modulus - 2 < 2 ^ (curve.modulus.log2 + 1) :=
    (Nat.sub_le _ _).trans_lt Nat.lt_log2_self
  rw [reciprocal, powMod_eq _ _ _ _ exponentBound, cast_mod, Nat.cast_pow]
  have positive : curve.modulus - 2 ≠ 0 := by
    have := curve.twoLt
    omega
  by_cases zero : (x : ZMod curve.modulus) = 0
  · rw [zero, zero_pow positive, inv_zero]
  · apply eq_inv_of_mul_eq_one_left
    rw [← pow_succ, show curve.modulus - 2 + 1 = curve.modulus - 1 by omega]
    exact ZMod.pow_card_sub_one_eq_one zero

theorem cast_eq_iff {x y : Nat} (xBound : x < curve.modulus) (yBound : y < curve.modulus) :
    (x : ZMod curve.modulus) = y ↔ x = y := by
  rw [ZMod.natCast_eq_natCast_iff', Nat.mod_eq_of_lt xBound, Nat.mod_eq_of_lt yBound]

/-! ## Point arithmetic -/

def OnCurve (x y : Nat) : Prop :=
  y * y % curve.modulus = (x * x * x + curve.a * x + curve.b) % curve.modulus

instance (x y : Nat) : Decidable (curve.OnCurve x y) :=
  inferInstanceAs (Decidable (_ = _))

def Valid : EPoint → Prop
  | .infinity => True
  | .affine x y => x < curve.modulus ∧ y < curve.modulus ∧ curve.OnCurve x y

instance : (point : EPoint) → Decidable (curve.Valid point)
  | .infinity => isTrue trivial
  | .affine _ _ => inferInstanceAs (Decidable (_ ∧ _ ∧ _))

/-- Reflect the third intersection of the line with the given slope through
`(x₁, y₁)` and a point with abscissa `x₂`. -/
def chord (slope x₁ y₁ x₂ : Nat) : EPoint :=
  let x₃ := (slope * slope + curve.neg x₁ + curve.neg x₂) % curve.modulus
  .affine x₃ ((slope * (x₁ + curve.neg x₃) + curve.neg y₁) % curve.modulus)

def add : EPoint → EPoint → EPoint
  | .infinity, right => right
  | left, .infinity => left
  | .affine x₁ y₁, .affine x₂ y₂ =>
      if x₁ = x₂ then
        if (y₁ + y₂) % curve.modulus = 0 then .infinity
        else curve.chord ((3 * x₁ * x₁ + curve.a) *
          curve.reciprocal (2 * y₁ % curve.modulus) % curve.modulus) x₁ y₁ x₂
      else curve.chord ((y₂ + curve.neg y₁) *
        curve.reciprocal ((x₂ + curve.neg x₁) % curve.modulus) % curve.modulus) x₁ y₁ x₂

/-- Double-and-add, one binary digit of the scalar for each unit of fuel. -/
def multAux : (fuel scalar : Nat) → EPoint → EPoint
  | 0, _, _ => .infinity
  | fuel + 1, scalar, point =>
      let half := multAux fuel (scalar / 2) point
      let doubled := curve.add half half
      if scalar % 2 = 0 then doubled else curve.add doubled point

def mult (scalar : Nat) (point : EPoint) : EPoint :=
  curve.multAux (scalar.log2 + 1) scalar point

/-! ## The point group -/

def weierstrass : WeierstrassCurve.Affine (ZMod curve.modulus) where
  a₁ := 0
  a₂ := 0
  a₃ := 0
  a₄ := curve.a
  a₆ := curve.b

theorem onCurve_iff_equation (x y : Nat) :
    curve.OnCurve x y ↔ curve.weierstrass.Equation x y := by
  rw [WeierstrassCurve.Affine.equation_iff, OnCurve]
  rw [← ZMod.natCast_eq_natCast_iff']
  push_cast
  simp only [weierstrass]
  constructor <;> intro equal <;> linear_combination equal

theorem discriminant_ne_zero : curve.weierstrass.Δ ≠ 0 := by
  have twoNe : (2 : ZMod curve.modulus) ≠ 0 := by
    intro equal
    have divides : curve.modulus ∣ 2 :=
      (ZMod.natCast_eq_zero_iff 2 curve.modulus).mp (by exact_mod_cast equal)
    exact absurd (Nat.le_of_dvd (by omega) divides) (by have := curve.twoLt; omega)
  have coreNe : (4 * (curve.a : ZMod curve.modulus) ^ 3 + 27 * curve.b ^ 2) ≠ 0 := by
    intro equal
    apply curve.discriminant
    apply Nat.mod_eq_zero_of_dvd
    apply (ZMod.natCast_eq_zero_iff _ curve.modulus).mp
    exact_mod_cast equal
  have expanded : curve.weierstrass.Δ =
      -(2 ^ 4 * (4 * (curve.a : ZMod curve.modulus) ^ 3 + 27 * curve.b ^ 2)) := by
    simp only [WeierstrassCurve.Δ, WeierstrassCurve.b₂, WeierstrassCurve.b₄,
      WeierstrassCurve.b₆, WeierstrassCurve.b₈, weierstrass]
    ring
  rw [expanded]
  exact neg_ne_zero.mpr (mul_ne_zero (pow_ne_zero 4 twoNe) coreNe)

theorem nonsingular_of_onCurve {x y : Nat} (onCurve : curve.OnCurve x y) :
    curve.weierstrass.Nonsingular x y :=
  (WeierstrassCurve.Affine.equation_iff_nonsingular_of_Δ_ne_zero
    curve.discriminant_ne_zero).mp ((curve.onCurve_iff_equation x y).mp onCurve)

/-- Interpret a point in the group; coordinates off the curve are sent to the
neutral element. -/
def toGroup : EPoint → curve.weierstrass.Point
  | .infinity => 0
  | .affine x y =>
      if onCurve : curve.OnCurve x y then .some x y (curve.nonsingular_of_onCurve onCurve)
      else 0

@[simp] theorem toGroup_infinity : curve.toGroup .infinity = 0 := rfl

theorem toGroup_affine {x y : Nat} {X Y : ZMod curve.modulus}
    (nonsingular : curve.weierstrass.Nonsingular X Y) (xEq : (x : ZMod curve.modulus) = X)
    (yEq : (y : ZMod curve.modulus) = Y) :
    curve.toGroup (.affine x y) = .some X Y nonsingular := by
  subst xEq yEq
  have onCurve : curve.OnCurve x y := (curve.onCurve_iff_equation x y).mpr nonsingular.1
  rw [toGroup, dif_pos onCurve]

theorem valid_affine {x y : Nat} {X Y : ZMod curve.modulus}
    (equation : curve.weierstrass.Equation X Y)
    (xEq : ((x % curve.modulus : Nat) : ZMod curve.modulus) = X)
    (yEq : ((y % curve.modulus : Nat) : ZMod curve.modulus) = Y) :
    curve.Valid (.affine (x % curve.modulus) (y % curve.modulus)) := by
  subst xEq yEq
  exact ⟨Nat.mod_lt _ curve.prime.pos, Nat.mod_lt _ curve.prime.pos,
    (curve.onCurve_iff_equation _ _).mpr equation⟩

theorem toGroup_injective {left right : EPoint} (leftValid : curve.Valid left)
    (rightValid : curve.Valid right) (equal : curve.toGroup left = curve.toGroup right) :
    left = right := by
  cases left with
  | infinity =>
      cases right with
      | infinity => rfl
      | affine x y =>
          rw [toGroup_affine curve (curve.nonsingular_of_onCurve rightValid.2.2) rfl rfl] at equal
          exact absurd equal.symm (WeierstrassCurve.Affine.Point.some_ne_zero _)
  | affine x₁ y₁ =>
      rw [toGroup_affine curve (curve.nonsingular_of_onCurve leftValid.2.2) rfl rfl] at equal
      cases right with
      | infinity => exact absurd equal (WeierstrassCurve.Affine.Point.some_ne_zero _)
      | affine x₂ y₂ =>
          rw [toGroup_affine curve (curve.nonsingular_of_onCurve rightValid.2.2) rfl rfl] at equal
          injection equal with xEqual yEqual
          rw [(curve.cast_eq_iff leftValid.1 rightValid.1).mp xEqual,
            (curve.cast_eq_iff leftValid.2.1 rightValid.2.1).mp yEqual]

/-! ## The operations are the group operations -/

private theorem chord_spec {slope x₁ y₁ x₂ y₂ : Nat}
    (left : curve.weierstrass.Nonsingular x₁ y₁)
    (right : curve.weierstrass.Nonsingular x₂ y₂)
    (generic : ¬((x₁ : ZMod curve.modulus) = x₂ ∧
      (y₁ : ZMod curve.modulus) = curve.weierstrass.negY x₂ y₂))
    (slopeEq : (slope : ZMod curve.modulus) = curve.weierstrass.slope x₁ x₂ y₁ y₂) :
    curve.Valid (curve.chord slope x₁ y₁ x₂) ∧
      curve.toGroup (curve.chord slope x₁ y₁ x₂) =
        .some _ _ left + .some _ _ right := by
  have sum : WeierstrassCurve.Affine.Point.some _ _ left +
      WeierstrassCurve.Affine.Point.some _ _ right =
        WeierstrassCurve.Affine.Point.some _ _
          (WeierstrassCurve.Affine.nonsingular_add left right generic) :=
    WeierstrassCurve.Affine.Point.add_some generic
  have nonsingular := WeierstrassCurve.Affine.nonsingular_add left right generic
  have xEq : (((slope * slope + curve.neg x₁ + curve.neg x₂) % curve.modulus : Nat) :
      ZMod curve.modulus) =
        curve.weierstrass.addX x₁ x₂ (curve.weierstrass.slope x₁ x₂ y₁ y₂) := by
    rw [cast_mod]
    push_cast
    rw [slopeEq, WeierstrassCurve.Affine.addX]
    simp only [cast_neg, weierstrass]
    ring
  have yEq : (((slope * (x₁ + curve.neg
        ((slope * slope + curve.neg x₁ + curve.neg x₂) % curve.modulus)) +
          curve.neg y₁) % curve.modulus : Nat) : ZMod curve.modulus) =
        curve.weierstrass.addY x₁ x₂ y₁ (curve.weierstrass.slope x₁ x₂ y₁ y₂) := by
    rw [cast_mod]
    push_cast
    rw [cast_neg, cast_neg, xEq, slopeEq, WeierstrassCurve.Affine.addY,
      WeierstrassCurve.Affine.negAddY, WeierstrassCurve.Affine.negY]
    simp only [weierstrass]
    ring
  constructor
  · exact curve.valid_affine nonsingular.1 xEq yEq
  · rw [sum]
    exact curve.toGroup_affine nonsingular xEq yEq

theorem add_spec : ∀ {left right : EPoint}, curve.Valid left → curve.Valid right →
    curve.Valid (curve.add left right) ∧
      curve.toGroup (curve.add left right) = curve.toGroup left + curve.toGroup right
  | .infinity, _, _, rightValid => by simpa [add] using rightValid
  | .affine _ _, .infinity, leftValid, _ => by simpa [add] using leftValid
  | .affine x₁ y₁, .affine x₂ y₂, leftValid, rightValid => by
      have left := curve.nonsingular_of_onCurve leftValid.2.2
      have right := curve.nonsingular_of_onCurve rightValid.2.2
      rw [toGroup_affine curve left rfl rfl, toGroup_affine curve right rfl rfl]
      have negYEq : curve.weierstrass.negY (x₂ : ZMod curve.modulus) y₂ = -y₂ := by
        simp [WeierstrassCurve.Affine.negY, weierstrass]
      have oppositeIff : (y₁ + y₂) % curve.modulus = 0 ↔
          (y₁ : ZMod curve.modulus) = curve.weierstrass.negY x₂ y₂ := by
        rw [negYEq, ← Nat.dvd_iff_mod_eq_zero, ← ZMod.natCast_eq_zero_iff,
          eq_neg_iff_add_eq_zero]
        push_cast
        rfl
      have sameAbscissa := curve.cast_eq_iff leftValid.1 rightValid.1
      rw [add]
      by_cases xEqual : x₁ = x₂
      · rw [if_pos xEqual]
        have xCast := sameAbscissa.mpr xEqual
        by_cases opposite : (y₁ + y₂) % curve.modulus = 0
        · rw [if_pos opposite]
          refine ⟨trivial, ?_⟩
          rw [WeierstrassCurve.Affine.Point.add_of_Y_eq xCast (oppositeIff.mp opposite)]
          rfl
        · rw [if_neg opposite]
          have yNe := fun equal => opposite (oppositeIff.mpr equal)
          apply curve.chord_spec left right fun both => yNe both.2
          rw [WeierstrassCurve.Affine.slope_of_Y_ne xCast yNe]
          simp only [cast_mod, Nat.cast_mul, cast_reciprocal, Nat.cast_add,
            Nat.cast_ofNat, WeierstrassCurve.Affine.negY, weierstrass]
          rw [div_eq_mul_inv]
          congr 2
          · ring
          · ring
      · rw [if_neg xEqual]
        have xNe := fun equal => xEqual (sameAbscissa.mp equal)
        apply curve.chord_spec left right fun both => xNe both.1
        rw [WeierstrassCurve.Affine.slope_of_X_ne xNe]
        simp only [cast_mod, Nat.cast_mul, cast_reciprocal, Nat.cast_add, cast_neg]
        rw [← neg_sub (x₂ : ZMod curve.modulus), ← neg_sub (y₂ : ZMod curve.modulus),
          neg_div_neg_eq, div_eq_mul_inv]
        ring

theorem add_valid {left right : EPoint} (leftValid : curve.Valid left)
    (rightValid : curve.Valid right) : curve.Valid (curve.add left right) :=
  (curve.add_spec leftValid rightValid).1

theorem toGroup_add {left right : EPoint} (leftValid : curve.Valid left)
    (rightValid : curve.Valid right) :
    curve.toGroup (curve.add left right) = curve.toGroup left + curve.toGroup right :=
  (curve.add_spec leftValid rightValid).2

private theorem multAux_spec {point : EPoint} (valid : curve.Valid point) :
    ∀ {fuel scalar : Nat}, scalar < 2 ^ fuel →
      curve.Valid (curve.multAux fuel scalar point) ∧
        curve.toGroup (curve.multAux fuel scalar point) = scalar • curve.toGroup point
  | 0, scalar, bound => by
      have scalarZero : scalar = 0 := by simpa using bound
      subst scalarZero
      exact ⟨trivial, by simp [multAux]⟩
  | fuel + 1, scalar, bound => by
      have halfBound : scalar / 2 < 2 ^ fuel := by
        rw [Nat.pow_succ] at bound
        omega
      rcases multAux_spec valid halfBound with ⟨halfValid, half⟩
      have doubledValid := curve.add_valid halfValid halfValid
      have doubled := curve.toGroup_add halfValid halfValid
      rw [half, ← add_nsmul] at doubled
      rcases Nat.mod_two_eq_zero_or_one scalar with even | odd
      · rw [multAux, if_pos even]
        exact ⟨doubledValid, doubled.trans (by congr 1; omega)⟩
      · rw [multAux, if_neg (by omega)]
        refine ⟨curve.add_valid doubledValid valid, ?_⟩
        rw [curve.toGroup_add doubledValid valid, doubled, ← succ_nsmul]
        congr 1
        omega

theorem mult_valid (scalar : Nat) {point : EPoint} (valid : curve.Valid point) :
    curve.Valid (curve.mult scalar point) :=
  (curve.multAux_spec valid Nat.lt_log2_self).1

theorem toGroup_mult (scalar : Nat) {point : EPoint} (valid : curve.Valid point) :
    curve.toGroup (curve.mult scalar point) = scalar • curve.toGroup point :=
  (curve.multAux_spec valid Nat.lt_log2_self).2

/-! ## Scalar laws, read off the group -/

theorem mult_add (first second : Nat) {point : EPoint} (valid : curve.Valid point) :
    curve.add (curve.mult first point) (curve.mult second point) =
      curve.mult (first + second) point := by
  have firstValid := curve.mult_valid first valid
  have secondValid := curve.mult_valid second valid
  apply curve.toGroup_injective (curve.add_valid firstValid secondValid)
    (curve.mult_valid _ valid)
  rw [curve.toGroup_add firstValid secondValid, curve.toGroup_mult _ valid,
    curve.toGroup_mult _ valid, curve.toGroup_mult _ valid, add_nsmul]

theorem mult_mult (outer inner : Nat) {point : EPoint} (valid : curve.Valid point) :
    curve.mult outer (curve.mult inner point) = curve.mult (outer * inner) point := by
  have innerValid := curve.mult_valid inner valid
  apply curve.toGroup_injective (curve.mult_valid _ innerValid) (curve.mult_valid _ valid)
  rw [curve.toGroup_mult _ innerValid, curve.toGroup_mult _ valid,
    curve.toGroup_mult _ valid, mul_nsmul']

theorem mult_eq_infinity_iff (scalar : Nat) {point : EPoint} (valid : curve.Valid point) :
    curve.mult scalar point = .infinity ↔ scalar • curve.toGroup point = 0 := by
  rw [← curve.toGroup_mult scalar valid]
  constructor
  · intro equal
    rw [equal]
    rfl
  · exact fun equal => curve.toGroup_injective (curve.mult_valid _ valid) trivial equal

theorem mult_congr {order first second : Nat} {point : EPoint} (valid : curve.Valid point)
    (annihilates : curve.mult order point = .infinity)
    (congruent : first % order = second % order) :
    curve.mult first point = curve.mult second point := by
  apply curve.toGroup_injective (curve.mult_valid _ valid) (curve.mult_valid _ valid)
  rw [curve.toGroup_mult _ valid, curve.toGroup_mult _ valid]
  have orderDvd : addOrderOf (curve.toGroup point) ∣ order :=
    addOrderOf_dvd_iff_nsmul_eq_zero.mpr
      ((curve.mult_eq_infinity_iff order valid).mp annihilates)
  have reduced : first ≡ second [MOD addOrderOf (curve.toGroup point)] :=
    Nat.ModEq.of_dvd orderDvd congruent
  exact (nsmul_eq_nsmul_iff_modEq).mpr reduced

/-- A finite point annihilated by a prime has exactly that order. -/
theorem mult_eq_infinity_iff_dvd {order : Nat} (orderPrime : order.Prime) {point : EPoint}
    (valid : curve.Valid point) (finite : point ≠ .infinity)
    (annihilates : curve.mult order point = .infinity) (scalar : Nat) :
    curve.mult scalar point = .infinity ↔ order ∣ scalar := by
  have pointNe : curve.toGroup point ≠ curve.toGroup .infinity := fun equal =>
    finite (curve.toGroup_injective valid trivial equal)
  have orderEq : addOrderOf (curve.toGroup point) = order :=
    have : Fact order.Prime := ⟨orderPrime⟩
    addOrderOf_eq_prime ((curve.mult_eq_infinity_iff order valid).mp annihilates) pointNe
  rw [curve.mult_eq_infinity_iff scalar valid, ← addOrderOf_dvd_iff_nsmul_eq_zero, orderEq]

end ShortCurve

end Penglai
