import Mathlib

namespace Penglai.Gm

/-! # MIRACL's extended Euclid

`xgcd` with one output: Euclid's algorithm on the four working numbers, the
cofactors kept positive and the sign of the last one settled by the parity of
the number of divisions. The multi-precision code takes several divisions at
once where the leading words allow it; the sequence of quotients is the same. -/

/-- The working numbers `w1 .. w4`, and whether `iter` is odd. -/
structure XgcdState where
  w1 : Nat
  w2 : Nat
  w3 : Nat
  w4 : Nat
  odd : Bool

def xgcdStep (state : XgcdState) : XgcdState where
  w1 := state.w2
  w2 := state.w1 % state.w2
  w3 := state.w4
  w4 := state.w3 + state.w4 * (state.w1 / state.w2)
  odd := !state.odd

def xgcdLoop : (fuel : Nat) → XgcdState → XgcdState
  | 0, state => state
  | fuel + 1, state => if state.w2 = 0 then state else xgcdLoop fuel (xgcdStep state)

/-- `xgcd(x, y, xd, xd, xd)`: the first cofactor. The second working number
decreases in every round, so the fuel is never used up. -/
def xgcd (x y : Nat) : Int :=
  let last := xgcdLoop (y + 1) ⟨x, y, 1, 0, false⟩
  if last.odd then (y : Int) - last.w3 else last.w3

def XgcdState.sign (state : XgcdState) : Int := if state.odd then -1 else 1

structure XgcdInvariant (x y : Nat) (state : XgcdState) : Prop where
  positive : 0 < state.w1
  gcd : Nat.gcd state.w1 state.w2 = Nat.gcd x y
  cross : state.w1 * state.w4 + state.w2 * state.w3 = y
  bounded : state.w3 ≤ y
  first : (state.sign * x * state.w3 : ZMod y) = state.w1
  second : (-state.sign * x * state.w4 : ZMod y) = state.w2

theorem xgcdInvariant_start {x y : Nat} (xPositive : 0 < x) (yPositive : 0 < y) :
    XgcdInvariant x y ⟨x, y, 1, 0, false⟩ where
  positive := xPositive
  gcd := rfl
  cross := by simp
  bounded := yPositive
  first := by simp [XgcdState.sign]
  second := by simp

theorem sign_xgcdStep (state : XgcdState) : (xgcdStep state).sign = -state.sign := by
  cases odd : state.odd <;> simp [XgcdState.sign, xgcdStep, odd]

theorem XgcdInvariant.step {x y : Nat} {state : XgcdState} (invariant : XgcdInvariant x y state)
    (nonzero : state.w2 ≠ 0) : XgcdInvariant x y (xgcdStep state) where
  positive := Nat.pos_of_ne_zero nonzero
  gcd := by
    rw [← invariant.gcd, Nat.gcd_comm state.w1, Nat.gcd_rec state.w2 state.w1, Nat.gcd_comm]
    rfl
  cross := by
    have division := Nat.div_add_mod state.w1 state.w2
    calc state.w2 * (state.w3 + state.w4 * (state.w1 / state.w2)) +
          state.w1 % state.w2 * state.w4
        = (state.w2 * (state.w1 / state.w2) + state.w1 % state.w2) * state.w4 +
            state.w2 * state.w3 := by ring
      _ = y := by rw [division, invariant.cross]
  bounded := by
    have large : 1 * state.w4 ≤ state.w1 * state.w4 := Nat.mul_le_mul_right _ invariant.positive
    have cross := invariant.cross
    simp only [xgcdStep]
    omega
  first := by
    rw [sign_xgcdStep]
    push_cast
    exact invariant.second
  second := by
    have division : (state.w2 : ZMod y) * (state.w1 / state.w2 : Nat) +
        (state.w1 % state.w2 : Nat) = state.w1 := by
      exact_mod_cast congrArg (Nat.cast (R := ZMod y)) (Nat.div_add_mod state.w1 state.w2)
    have first := invariant.first
    have second := invariant.second
    rw [sign_xgcdStep]
    simp only [xgcdStep]
    push_cast
    linear_combination first - division - (state.w1 / state.w2 : Nat) * second

theorem XgcdInvariant.loop {x y : Nat} : ∀ {fuel : Nat} {state : XgcdState},
    XgcdInvariant x y state → state.w2 < fuel →
      XgcdInvariant x y (xgcdLoop fuel state) ∧ (xgcdLoop fuel state).w2 = 0
  | 0, _, _, short => absurd short (Nat.not_lt_zero _)
  | fuel + 1, state, invariant, enough => by
      rw [xgcdLoop]
      by_cases done : state.w2 = 0
      · rw [if_pos done]
        exact ⟨invariant, done⟩
      · rw [if_neg done]
        have smaller : (xgcdStep state).w2 < state.w2 :=
          Nat.mod_lt _ (Nat.pos_of_ne_zero done)
        exact (invariant.step done).loop (by omega)

/-- The cofactor is between zero and `y`, and times `x` it is the greatest
common divisor modulo `y`. -/
theorem xgcd_spec {x y : Nat} (xPositive : 0 < x) (yPositive : 0 < y) :
    0 ≤ xgcd x y ∧ xgcd x y ≤ y ∧ (x * xgcd x y : ZMod y) = Nat.gcd x y := by
  rcases (xgcdInvariant_start xPositive yPositive).loop (Nat.lt_add_one y) with ⟨invariant, done⟩
  have gcd := invariant.gcd
  rw [done, Nat.gcd_zero_right] at gcd
  have bounded := invariant.bounded
  have first := invariant.first
  rw [gcd] at first
  cases odd : (xgcdLoop (y + 1) ⟨x, y, 1, 0, false⟩).odd with
  | false =>
      have result : xgcd x y = (xgcdLoop (y + 1) ⟨x, y, 1, 0, false⟩).w3 := by
        simp only [xgcd, odd]
        rfl
      rw [XgcdState.sign, odd] at first
      rw [result]
      refine ⟨by omega, by omega, ?_⟩
      rw [← first]
      push_cast
      simp
  | true =>
      have result : xgcd x y = (y : Int) - (xgcdLoop (y + 1) ⟨x, y, 1, 0, false⟩).w3 := by
        simp only [xgcd, odd]
        rfl
      rw [XgcdState.sign, odd] at first
      rw [result]
      refine ⟨by omega, by omega, ?_⟩
      rw [← first]
      push_cast
      rw [ZMod.natCast_self]
      simp

/-- With equal inputs nothing is inverted: the cofactor is the modulus itself. -/
theorem xgcd_self {y : Nat} (positive : 0 < y) : xgcd y y = y := by
  obtain ⟨fuel, rfl⟩ : ∃ fuel, y = fuel + 1 := ⟨y - 1, by omega⟩
  have done : ∀ state : XgcdState, state.w2 = 0 → xgcdLoop fuel state = state := by
    intro state zero
    cases fuel with
    | zero => rfl
    | succ fuel => rw [xgcdLoop, if_pos zero]
  have once : xgcdLoop (fuel + 1 + 1) ⟨fuel + 1, fuel + 1, 1, 0, false⟩ =
      xgcdStep ⟨fuel + 1, fuel + 1, 1, 0, false⟩ := by
    rw [xgcdLoop, if_neg (by simp), xgcdLoop, if_pos (by simp [xgcdStep])]
  rw [xgcd, once]
  simp [xgcdStep]

end Penglai.Gm
