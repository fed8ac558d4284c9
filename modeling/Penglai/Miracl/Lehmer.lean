import Penglai.Foundation.Lehmer
import Penglai.Gm.Xgcd

namespace Penglai.Miracl

open Gm (XgcdState xgcdStep xgcdLoop)

/-! # Several divisions at once

`xgcd` looks for quotients in the leading 64 bits of its two numbers, and keeps the
cofactors of the divisions it has found in single words until a quotient is in doubt or
a cofactor is too long. Only then the long numbers are brought up to date. -/

def maxBase : UInt32 := 0x80000000

/-- `qdiv` with `left` of its eight subtractions to go. -/
def qdivFrom (v : UInt64) : (left : Nat) → (quotient : UInt32) → (x : UInt64) → UInt32
  | 0, _, x =>
      let lq := 8 + x / v
      if lq ≥ maxBase.toUInt64 then 0 else lq.toUInt32
  | left + 1, quotient, x =>
      let x := x - v
      if x < v then quotient else qdivFrom v left (quotient + 1) x

def qdiv (u v : UInt64) : UInt32 := qdivFrom v 8 1 u

structure Lehmer where
  a : UInt32
  b : UInt32
  c : UInt32
  d : UInt32
  u : UInt64
  v : UInt64
  dplus : Bool
  iter : Nat

namespace Lehmer

def quotient (last : Bool) (state : Lehmer) : Option UInt32 :=
  if last then
    if state.v = 0 then none
    else
      let q := qdiv state.u state.v
      if q = 0 then none else some q
  else if state.dplus then
    if (state.v - state.c.toUInt64).toUInt32 = 0 ∨ (state.v + state.d.toUInt64).toUInt32 = 0 then
      none
    else
      let q := qdiv (state.u + state.a.toUInt64) (state.v - state.c.toUInt64)
      if q = 0 then none
      else if q ≠ qdiv (state.u - state.b.toUInt64) (state.v + state.d.toUInt64) then none
      else some q
  else
    if (state.v + state.c.toUInt64).toUInt32 = 0 ∨ (state.v - state.d.toUInt64).toUInt32 = 0 then
      none
    else
      let q := qdiv (state.u - state.a.toUInt64) (state.v + state.c.toUInt64)
      if q = 0 then none
      else if q ≠ qdiv (state.u + state.b.toUInt64) (state.v - state.d.toUInt64) then none
      else some q

def take (q : UInt32) (state : Lehmer) : Option Lehmer :=
  if q = 1 then
    if state.b + state.d ≥ maxBase then none
    else
      some { a := state.c, c := state.a + state.c, b := state.d, d := state.b + state.d,
             u := state.v, v := state.u - state.v, iter := state.iter + 1, dplus := !state.dplus }
  else if q ≥ (maxBase - state.b) / state.d then none
  else
    some { a := state.c, c := state.a + q * state.c, b := state.d, d := state.b + q * state.d,
           u := state.v, v := state.u - q.toUInt64 * state.v, iter := state.iter + 1,
           dplus := !state.dplus }

def round (last : Bool) (state : Lehmer) : Option Lehmer :=
  (state.quotient last).bind fun q => state.take q

/-- The loop `forever`. The working digits `v` decrease in every round, so the fuel is never
used up. -/
def loop (last : Bool) : (fuel : Nat) → Lehmer → Lehmer
  | 0, state => state
  | fuel + 1, state =>
      match state.round last with
      | none => state
      | some state => loop last fuel state

end Lehmer

/-! ## The quotient of two words -/

theorem qdivFrom_eq {v : UInt64} (positive : 0 < v.toNat) : ∀ (left : Nat) {done X : Nat}
    {quotient : UInt32} {x : UInt64}, quotient.toNat = done + 1 → done + left = 8 →
    x.toNat = X % 2 ^ 64 → v.toNat ≤ X ∨ left = 0 → X + done * v.toNat < 2 ^ 64 + v.toNat →
    (qdivFrom v left quotient x).toNat =
      if done + X / v.toNat < 2 ^ 31 then done + X / v.toNat else 0
  | 0, done, X, quotient, x, count, all, digits, _, bound => by
      have eight : done = 8 := by omega
      subst eight
      have less : X < 2 ^ 64 := by omega
      rw [Nat.mod_eq_of_lt less] at digits
      have small : 8 + X / v.toNat ≤ 2 ^ 64 := by
        have le := Nat.div_le_div_right (c := v.toNat) (show X + 8 * v.toNat ≤ 2 ^ 64 + v.toNat - 1 by
          omega)
        rw [Nat.add_mul_div_right _ _ positive] at le
        have most : (2 ^ 64 + v.toNat - 1) / v.toNat ≤ 2 ^ 64 := by
          apply Nat.div_le_of_le_mul
          omega
        omega
      have quotient' : (8 + x / v).toNat = (8 + X / v.toNat) % 2 ^ 64 := by
        rw [UInt64.toNat_add, UInt64.toNat_div, digits]
        rfl
      rw [qdivFrom]
      simp only [ge_iff_le, UInt64.le_iff_toNat_le, quotient']
      rw [show maxBase.toUInt64.toNat = 2 ^ 31 from rfl]
      generalize X / v.toNat = q at small quotient' ⊢
      split
      · rw [if_neg (by omega)]
        rfl
      · rename_i inside
        rw [UInt64.toNat_toUInt32, quotient']
        split
        · omega
        · omega
  | left + 1, done, X, quotient, x, count, all, digits, enough, bound => by
      have le : v.toNat ≤ X := enough.resolve_right (Nat.succ_ne_zero left)
      have vBound := v.toNat_lt
      have times : 0 ≤ done * v.toNat := Nat.zero_le _
      have rest : (x - v).toNat = X - v.toNat := by
        rw [UInt64.toNat_sub, digits]
        omega
      have whole : X / v.toNat = (X - v.toNat) / v.toNat + 1 := Nat.div_eq_sub_div positive le
      rw [qdivFrom]
      simp only [UInt64.lt_iff_toNat_lt, rest]
      split
      · rename_i less
        rw [whole, Nat.div_eq_of_lt less, count, if_pos (by omega)]
      · rename_i more
        have next := @qdivFrom_eq v positive left (done + 1) (X - v.toNat) (quotient + 1) (x - v) (by
            rw [UInt32.toNat_add, count]
            exact Nat.mod_eq_of_lt (by show done + 1 + 1 < 2 ^ 32; omega))
          (by omega) (by rw [rest, Nat.mod_eq_of_lt (by omega)]) (Or.inl (by omega))
          (by rw [Nat.add_mul]; omega)
        rw [next, whole]
        have same : done + 1 + (X - v.toNat) / v.toNat = done + ((X - v.toNat) / v.toNat + 1) := by
          omega
        rw [same]

/-- `qdiv` divides a number that may be longer than its word by less than the divisor; quotients
from `MAXBASE` on are not reported. -/
theorem qdiv_eq {u v : UInt64} {U V : Nat} (first : u.toNat = U % 2 ^ 64) (second : v.toNat = V)
    (positive : 0 < V) (le : V ≤ U) (bound : U < 2 ^ 64 + V) :
    (qdiv u v).toNat = if U / V < 2 ^ 31 then U / V else 0 := by
  subst second
  have result := @qdivFrom_eq v positive 8 0 U 1 u rfl rfl first (Or.inl le)
    (by rw [Nat.zero_mul, Nat.add_zero]; exact bound)
  rw [Nat.zero_add] at result
  exact result

/-! ## Where Euclid's algorithm ends -/

def xgcdFinal (state : XgcdState) : XgcdState := xgcdLoop (state.w2 + 1) state

theorem xgcdLoop_done {state : XgcdState} (done : state.w2 = 0) (fuel : Nat) :
    xgcdLoop fuel state = state := by
  cases fuel with
  | zero => rfl
  | succ fuel => rw [xgcdLoop, if_pos done]

theorem xgcdStep_lt {state : XgcdState} (more : state.w2 ≠ 0) : (xgcdStep state).w2 < state.w2 :=
  Nat.mod_lt _ (Nat.pos_of_ne_zero more)

theorem xgcdLoop_fuel : ∀ {fuel fuel' : Nat} {state : XgcdState}, state.w2 < fuel →
    state.w2 < fuel' → xgcdLoop fuel state = xgcdLoop fuel' state
  | 0, _, _, short, _ => absurd short (Nat.not_lt_zero _)
  | _, 0, _, _, short => absurd short (Nat.not_lt_zero _)
  | fuel + 1, fuel' + 1, state, enough, enough' => by
      rw [xgcdLoop, xgcdLoop]
      split
      · rfl
      · rename_i more
        have less := xgcdStep_lt more
        exact xgcdLoop_fuel (by omega) (by omega)

theorem xgcdFinal_done {state : XgcdState} (done : state.w2 = 0) : xgcdFinal state = state :=
  xgcdLoop_done done _

theorem xgcdFinal_step {state : XgcdState} (more : state.w2 ≠ 0) :
    xgcdFinal (xgcdStep state) = xgcdFinal state := by
  have once : xgcdFinal state = xgcdLoop state.w2 (xgcdStep state) := by
    rw [xgcdFinal, xgcdLoop, if_neg more]
  rw [once]
  exact xgcdLoop_fuel (Nat.lt_succ_self _) (xgcdStep_lt more)

def Divides (state next : XgcdState) : Prop := state.w2 ≠ 0 ∧ next = xgcdStep state

theorem divides_shrinks {state next : XgcdState} (steps : Relation.TransGen Divides state next) :
    xgcdFinal next = xgcdFinal state ∧ next.w2 < next.w1 ∧ next.w1 ≤ state.w2 ∧
      next.w2 < state.w2 := by
  induction steps with
  | single step =>
      rcases step with ⟨more, rfl⟩
      exact ⟨xgcdFinal_step more, xgcdStep_lt more, Nat.le_refl _, xgcdStep_lt more⟩
  | tail _ step induction =>
      rcases step with ⟨more, rfl⟩
      rcases induction with ⟨final, -, -, less⟩
      exact ⟨(xgcdFinal_step more).trans final, xgcdStep_lt more, less.le,
        (xgcdStep_lt more).trans less⟩

/-! ## The loop over the leading digits -/

namespace Lehmer

section Margins

variable (state : Lehmer)

def uLow : Nat := if state.dplus then state.b.toNat else state.a.toNat

def uHigh : Nat := if state.dplus then state.a.toNat else state.b.toNat

def vLow : Nat := if state.dplus then state.c.toNat else state.d.toNat

def vHigh : Nat := if state.dplus then state.d.toNat else state.c.toNat

end Margins

/-- The cofactors of the divisions that lead from `start` to `current`. -/
structure Taken (start current : XgcdState) (state : Lehmer) : Prop where
  first : start.w1 = state.d.toNat * current.w1 + state.b.toNat * current.w2
  second : start.w2 = state.c.toNat * current.w1 + state.a.toNat * current.w2
  third : current.w3 = state.a.toNat * start.w3 + state.b.toNat * start.w4
  fourth : current.w4 = state.c.toNat * start.w3 + state.d.toNat * start.w4
  determinant : if state.dplus then
      state.a.toNat * state.d.toNat = state.b.toNat * state.c.toNat + 1
    else state.b.toNat * state.c.toNat = state.a.toNat * state.d.toNat + 1
  parity : decide (state.iter % 2 = 1) = current.odd
  reached : state.b = 0 ∧ current = start ∨ state.b ≠ 0 ∧ Relation.TransGen Divides start current

structure Fits (state : Lehmer) : Prop where
  ascending : state.a ≤ state.b ∧ state.c ≤ state.d ∨ state.a = 1 ∧ state.c = 0
  positive : 0 < state.d.toNat
  bBound : state.b.toNat < 2 ^ 31
  dBound : state.d.toNat < 2 ^ 31

/-- What the working digits tell about the two numbers. -/
inductive Leading (scale X Y : Nat) : Bool → Lehmer → Prop
  | whole {state : Lehmer} (first : state.u.toNat = X) (second : state.v.toNat = Y)
      (ordered : Y ≤ X) : Leading scale X Y true state
  | digits {state : Lehmer}
      (first : Approximates scale state.u.toNat state.uLow state.uHigh X)
      (second : Approximates scale state.v.toNat state.vLow state.vHigh Y)
      (uFits : state.u.toNat + state.uHigh ≤ 2 ^ 64)
      (vFits : state.v.toNat + state.vHigh ≤ 2 ^ 64)
      (gap : state.v.toNat + state.vHigh ≤ state.u.toNat - state.uLow ∨
        state.u.toNat = state.v.toNat ∧ state.uHigh = 1 ∧ state.vLow = 0 ∧ state.uLow = 0 ∧
          state.vHigh = 1) :
      Leading scale X Y false state

/-! ### The quotient -/

theorem eq_of_qdiv {u v : UInt64} {U V : Nat} {q : UInt32} (result : qdiv u v = q) (some : q ≠ 0)
    (first : u.toNat = U % 2 ^ 64) (second : v.toNat = V) (positive : 0 < V) (le : V ≤ U)
    (bound : U < 2 ^ 64 + V) : U / V = q.toNat := by
  have quotient := qdiv_eq first second positive le bound
  rw [result] at quotient
  split at quotient
  · exact quotient.symm
  · exact absurd (UInt32.toNat_inj.mp quotient) some

/-- Where `qdiv` reports the same quotient for both ends, it is their quotient: also where the
lower end of the first number is below the upper end of the second one, so that the subtraction
in `qdiv` goes below zero. -/
theorem sameQuotient_of_qdiv {u uLow uHigh v vLow vHigh : Nat} {uMost vLeast uLeast vMost : UInt64}
    {q : UInt32} (uMargin : uLow ≤ u) (vMargin : vLow ≤ v) (uBound : u < 2 ^ 64)
    (uFits : u + uHigh ≤ 2 ^ 64) (vFits : v + vHigh ≤ 2 ^ 64)
    (gap : v + vHigh ≤ u - uLow ∨ u = v ∧ uHigh = 1 ∧ vLow = 0 ∧ uLow = 0 ∧ vHigh = 1)
    (uMost' : uMost.toNat = (u + uHigh) % 2 ^ 64) (vLeast' : vLeast.toNat = v - vLow)
    (uLeast' : uLeast.toNat = u - uLow) (vMost' : vMost.toNat = (v + vHigh) % 2 ^ 64)
    (vLeastSome : vLeast ≠ 0) (vMostSome : vMost ≠ 0) (some : q ≠ 0)
    (most : qdiv uMost vLeast = q) (least : qdiv uLeast vMost = q) :
    SameQuotient u uLow uHigh v vLow vHigh q.toNat := by
  have vLeastPositive : 0 < v - vLow := by
    rw [← vLeast']
    exact Nat.pos_of_ne_zero fun zero => vLeastSome (UInt64.toNat_inj.mp zero)
  have vMostPositive : (v + vHigh) % 2 ^ 64 ≠ 0 := by
    rw [← vMost']
    exact fun zero => vMostSome (UInt64.toNat_inj.mp zero)
  have vMostLess : v + vHigh < 2 ^ 64 := by omega
  rw [Nat.mod_eq_of_lt vMostLess] at vMost'
  have mostQuotient := eq_of_qdiv most some uMost' vLeast' vLeastPositive (by omega) (by omega)
  rcases gap with apart | ⟨same, rfl, rfl, rfl, rfl⟩
  · have leastQuotient := eq_of_qdiv least some (uLeast'.trans (Nat.mod_eq_of_lt (by omega)).symm)
      vMost' (by omega) apart (by omega)
    exact sameQuotient_of_div (by omega) mostQuotient leastQuotient
  · subst same
    have wrapped := eq_of_qdiv (U := 2 ^ 64 + u) least some (by rw [uLeast']; omega) vMost'
      (by omega) (by omega) (by omega)
    rw [Nat.sub_zero] at mostQuotient vLeastPositive
    have atLeast : 2 ≤ q.toNat := by
      rw [← wrapped, Nat.le_div_iff_mul_le (by omega)]
      omega
    have product : q.toNat * u ≤ u + 1 := by
      rw [← mostQuotient]
      exact Nat.div_mul_le_self _ _
    have twice : 2 * u ≤ q.toNat * u := Nat.mul_le_mul_right u atLeast
    have one : u = 1 := by omega
    subst one
    omega

theorem agreed {doubtful : Prop} [Decidable doubtful] {first second q : UInt32}
    (found : (if doubtful then none
      else if first = 0 then none else if first ≠ second then none else some first) = some q) :
    ¬doubtful ∧ q ≠ 0 ∧ first = q ∧ second = q := by
  split at found
  · cases found
  · rename_i trusted
    split at found
    · cases found
    · rename_i nonzero
      split at found
      · cases found
      · rename_i same
        cases found
        exact ⟨trusted, nonzero, rfl, (not_not.mp same).symm⟩

theorem quotient_digits {scale X Y : Nat} {state : Lehmer} {q : UInt32}
    (leading : Leading scale X Y false state) (found : state.quotient false = some q) :
    q ≠ 0 ∧ SameQuotient state.u.toNat state.uLow state.uHigh state.v.toNat state.vLow state.vHigh
      q.toNat := by
  cases leading with
  | digits first second uFits vFits gap =>
      have uMargin := first.margin
      have vMargin := second.margin
      have word : ∀ {x : UInt64}, x.toUInt32 ≠ 0 → x ≠ 0 := fun low zero => low (by rw [zero]; rfl)
      have sum : ∀ (x : UInt64) (y : UInt32),
          (x + y.toUInt64).toNat = (x.toNat + y.toNat) % 2 ^ 64 := fun x y => by
        rw [UInt64.toNat_add, UInt32.toNat_toUInt64]
      have difference : ∀ {x : UInt64} {y : UInt32}, y.toNat ≤ x.toNat →
          (x - y.toUInt64).toNat = x.toNat - y.toNat := fun le => by
        rw [UInt64.toNat_sub_of_le _ _ (UInt64.le_iff_toNat_le.mpr (by
          rwa [UInt32.toNat_toUInt64])), UInt32.toNat_toUInt64]
      rw [quotient, if_neg Bool.false_ne_true] at found
      cases plus : state.dplus with
      | true =>
          simp only [uLow, uHigh, vLow, vHigh, plus, if_true] at uMargin vMargin uFits vFits gap ⊢
          simp only [plus, if_true] at found
          rcases agreed found with ⟨trusted, nonzero, most, least⟩
          rw [not_or] at trusted
          exact ⟨nonzero, sameQuotient_of_qdiv uMargin vMargin state.u.toNat_lt uFits vFits gap
            (sum _ _) (difference vMargin) (difference uMargin) (sum _ _) (word trusted.1)
            (word trusted.2) nonzero most least⟩
      | false =>
          simp only [uLow, uHigh, vLow, vHigh, plus, Bool.false_eq_true, if_false]
            at uMargin vMargin uFits vFits gap ⊢
          simp only [plus, Bool.false_eq_true, if_false] at found
          rcases agreed found with ⟨trusted, nonzero, least, most⟩
          rw [not_or] at trusted
          exact ⟨nonzero, sameQuotient_of_qdiv uMargin vMargin state.u.toNat_lt uFits vFits gap
            (sum _ _) (difference vMargin) (difference uMargin) (sum _ _) (word trusted.2)
            (word trusted.1) nonzero most least⟩

theorem quotient_whole {state : Lehmer} {q : UInt32} (ordered : state.v.toNat ≤ state.u.toNat)
    (found : state.quotient true = some q) :
    q ≠ 0 ∧ 0 < state.v.toNat ∧ state.u.toNat / state.v.toNat = q.toNat := by
  rw [quotient, if_pos rfl] at found
  split at found
  · cases found
  · rename_i nonzero
    simp only at found
    split at found
    · cases found
    · rename_i some
      cases found
      have positive : 0 < state.v.toNat :=
        Nat.pos_of_ne_zero fun zero => nonzero (UInt64.toNat_inj.mp zero)
      have uBound := state.u.toNat_lt
      exact ⟨some, positive, eq_of_qdiv rfl some (Nat.mod_eq_of_lt uBound).symm rfl positive ordered
        (by omega)⟩

/-! ### One division -/

structure Advanced (q : UInt32) (state next : Lehmer) : Prop where
  a : next.a = state.c
  b : next.b = state.d
  c : next.c.toNat = state.a.toNat + q.toNat * state.c.toNat
  d : next.d.toNat = state.b.toNat + q.toNat * state.d.toNat
  dBound : state.b.toNat + q.toNat * state.d.toNat < 2 ^ 31
  u : next.u = state.v
  v : next.v = state.u - q.toUInt64 * state.v
  dplus : next.dplus = !state.dplus
  iter : next.iter = state.iter + 1

theorem ascending_sum {a b c d q : Nat} (ascending : a ≤ b ∧ c ≤ d ∨ a = 1 ∧ c = 0)
    (positive : 0 < d) (some : 0 < q) : a + q * c ≤ b + q * d := by
  rcases ascending with ⟨first, second⟩ | ⟨rfl, rfl⟩
  · have := Nat.mul_le_mul_left q second
    omega
  · have := Nat.mul_le_mul some positive
    omega

theorem Fits.le {state : Lehmer} (fits : Fits state) {q : Nat} (some : 0 < q) :
    state.a.toNat + q * state.c.toNat ≤ state.b.toNat + q * state.d.toNat := by
  apply ascending_sum _ fits.positive some
  rcases fits.ascending with ⟨first, second⟩ | ⟨first, second⟩
  · exact Or.inl ⟨UInt32.le_iff_toNat_le.mp first, UInt32.le_iff_toNat_le.mp second⟩
  · rw [first, second]
    exact Or.inr ⟨rfl, rfl⟩

theorem take_advanced {state next : Lehmer} {q : UInt32} (fits : Fits state) (nonzero : q ≠ 0)
    (taken : state.take q = some next) : Advanced q state next := by
  have bBound := fits.bBound
  have dBound := fits.dBound
  have positive : 0 < q.toNat := Nat.pos_of_ne_zero fun zero => nonzero (UInt32.toNat_inj.mp zero)
  have lower := fits.le positive
  rw [take] at taken
  split at taken
  · rename_i one
    have unit : q.toNat = 1 := by rw [one]; rfl
    rw [unit, Nat.one_mul, Nat.one_mul] at lower
    have sum : (state.b + state.d).toNat = state.b.toNat + state.d.toNat := by
      rw [UInt32.toNat_add]
      omega
    split at taken
    · cases taken
    · rename_i small
      rw [ge_iff_le, UInt32.not_le, UInt32.lt_iff_toNat_lt, sum] at small
      have bound : state.b.toNat + state.d.toNat < 2 ^ 31 := small
      cases taken
      constructor
      · rfl
      · rfl
      · rw [unit, Nat.one_mul, UInt32.toNat_add]
        exact Nat.mod_eq_of_lt (by omega)
      · rw [unit, Nat.one_mul, sum]
      · rw [unit, Nat.one_mul]
        exact bound
      · rfl
      · rw [one, show (1 : UInt32).toUInt64 = 1 from rfl, UInt64.one_mul]
      · rfl
      · rfl
  · split at taken
    · cases taken
    · rename_i small
      have room : (maxBase - state.b).toNat = 2 ^ 31 - state.b.toNat :=
        UInt32.toNat_sub_of_le _ _ (UInt32.le_iff_toNat_le.mpr (by
          show state.b.toNat ≤ 2 ^ 31
          omega))
      rw [ge_iff_le, UInt32.not_le, UInt32.lt_iff_toNat_lt, UInt32.toNat_div, room] at small
      have next' := (Nat.le_div_iff_mul_le fits.positive).mp small
      rw [Nat.succ_mul] at next'
      have some' := fits.positive
      have bound : state.b.toNat + q.toNat * state.d.toNat < 2 ^ 31 := by omega
      cases taken
      constructor
      · rfl
      · rfl
      · rw [UInt32.toNat_add, UInt32.toNat_mul, Nat.add_mod_mod]
        exact Nat.mod_eq_of_lt (by omega)
      · rw [UInt32.toNat_add, UInt32.toNat_mul, Nat.add_mod_mod]
        exact Nat.mod_eq_of_lt (by omega)
      · exact bound
      · rfl
      · rfl
      · rfl
      · rfl

namespace Advanced

variable {state next : Lehmer} {q : UInt32} (advanced : Advanced q state next)

include advanced

theorem fits (fits : Fits state) (nonzero : q ≠ 0) : Fits next where
  ascending := by
    have positive : 0 < q.toNat := Nat.pos_of_ne_zero fun zero => nonzero (UInt32.toNat_inj.mp zero)
    have lower := fits.le positive
    rw [UInt32.le_iff_toNat_le, UInt32.le_iff_toNat_le, advanced.a, advanced.b, advanced.c,
      advanced.d]
    rcases fits.ascending with ⟨-, ordered⟩ | ⟨-, zero⟩
    · exact Or.inl ⟨UInt32.le_iff_toNat_le.mp ordered, lower⟩
    · exact Or.inl ⟨by rw [zero]; exact Nat.zero_le _, lower⟩
  positive := by
    have positive : 0 < q.toNat := Nat.pos_of_ne_zero fun zero => nonzero (UInt32.toNat_inj.mp zero)
    rw [advanced.d]
    exact Nat.add_pos_right _ (Nat.mul_pos positive fits.positive)
  bBound := by
    rw [advanced.b]
    exact fits.dBound
  dBound := by
    rw [advanced.d]
    exact advanced.dBound

theorem taken {start current : XgcdState} (fits : Fits state) (taken : Taken start current state)
    (more : current.w2 ≠ 0) (quotient : current.w1 / current.w2 = q.toNat) :
    Taken start (xgcdStep current) next where
  first := by
    have division := Nat.div_add_mod current.w1 current.w2
    rw [quotient] at division
    rw [taken.first, advanced.d, advanced.b, xgcdStep]
    calc state.d.toNat * current.w1 + state.b.toNat * current.w2
        = state.d.toNat * (current.w2 * q.toNat + current.w1 % current.w2) +
            state.b.toNat * current.w2 := by rw [division]
      _ = _ := by ring
  second := by
    have division := Nat.div_add_mod current.w1 current.w2
    rw [quotient] at division
    rw [taken.second, advanced.c, advanced.a, xgcdStep]
    calc state.c.toNat * current.w1 + state.a.toNat * current.w2
        = state.c.toNat * (current.w2 * q.toNat + current.w1 % current.w2) +
            state.a.toNat * current.w2 := by rw [division]
      _ = _ := by ring
  third := by
    rw [advanced.a, advanced.b]
    exact taken.fourth
  fourth := by
    rw [advanced.c, advanced.d, xgcdStep]
    simp only [quotient]
    rw [taken.third, taken.fourth]
    ring
  determinant := by
    have determinant := taken.determinant
    rw [advanced.dplus, advanced.a, advanced.b, advanced.c, advanced.d]
    cases plus : state.dplus with
    | true =>
        rw [plus, if_pos rfl] at determinant
        rw [Bool.not_true, if_neg Bool.false_ne_true]
        linear_combination determinant
    | false =>
        rw [plus, if_neg Bool.false_ne_true] at determinant
        rw [Bool.not_false, if_pos rfl]
        linear_combination determinant
  parity := by
    have parity := taken.parity
    rw [advanced.iter, xgcdStep]
    simp only
    rw [← parity, ← decide_not]
    congr 1
    apply propext
    omega
  reached := by
    right
    rw [advanced.b]
    refine ⟨fun zero => Nat.ne_of_gt fits.positive (by rw [zero]; rfl), ?_⟩
    rcases taken.reached with ⟨-, rfl⟩ | ⟨-, before⟩
    · exact .single ⟨more, rfl⟩
    · exact before.tail ⟨more, rfl⟩

theorem v_toNat (le : q.toNat * state.v.toNat ≤ state.u.toNat) :
    next.v.toNat = state.u.toNat - q.toNat * state.v.toNat := by
  have bound := state.u.toNat_lt
  have product : (q.toUInt64 * state.v).toNat = q.toNat * state.v.toNat := by
    rw [UInt64.toNat_mul, UInt32.toNat_toUInt64]
    exact Nat.mod_eq_of_lt (by omega)
  rw [advanced.v, UInt64.toNat_sub_of_le _ _ (UInt64.le_iff_toNat_le.mpr (by rwa [product])),
    product]

theorem margins : next.uLow = state.vLow ∧ next.uHigh = state.vHigh ∧
    next.vLow = state.uLow + q.toNat * state.vHigh ∧
    next.vHigh = state.uHigh + q.toNat * state.vLow := by
  simp only [uLow, uHigh, vLow, vHigh, advanced.dplus, advanced.a, advanced.b, advanced.c,
    advanced.d]
  cases state.dplus with
  | true => exact ⟨rfl, rfl, rfl, rfl⟩
  | false => exact ⟨rfl, rfl, rfl, rfl⟩

end Advanced

/-- The quotient that a round finds is that of the numbers, and its division leaves the leading
digits of the divisor and of the remainder. -/
theorem round_leading {scale X Y : Nat} {last : Bool} {state next : Lehmer} {q : UInt32}
    (leading : Leading scale X Y last state) (found : state.quotient last = some q)
    (advanced : Advanced q state next) :
    q ≠ 0 ∧ Y ≠ 0 ∧ X / Y = q.toNat ∧ Leading scale Y (X % Y) last next ∧
      next.v.toNat < state.v.toNat := by
  cases last with
  | true =>
      cases leading with
      | whole first second ordered =>
          subst first second
          rcases quotient_whole ordered found with ⟨nonzero, positive, quotient⟩
          have le : q.toNat * state.v.toNat ≤ state.u.toNat := by
            rw [← quotient]
            exact Nat.div_mul_le_self _ _
          have rest : next.v.toNat = state.u.toNat % state.v.toNat := by
            rw [advanced.v_toNat le, ← quotient, Nat.mul_comm, Nat.mod_eq_sub_mul_div]
          have less : next.v.toNat < state.v.toNat := by
            rw [rest]
            exact Nat.mod_lt _ positive
          exact ⟨nonzero, Nat.ne_of_gt positive, quotient,
            .whole (by rw [advanced.u]) rest (by rw [← rest]; exact less.le), less⟩
  | false =>
      rcases quotient_digits leading found with ⟨nonzero, ends⟩
      cases leading with
      | digits first second uFits vFits gap =>
          have quotient := quotient_of_ends first second ends
          have remainder := remainder_of_ends first second ends
          have apart := gap_of_ends ends
          have positive : Y ≠ 0 := by
            rintro rfl
            rw [Nat.div_zero] at quotient
            exact nonzero (UInt32.toNat_inj.mp quotient.symm)
          have le : q.toNat * state.v.toNat ≤ state.u.toNat := by
            have least := ends.least
            rw [Nat.mul_add] at least
            omega
          rcases advanced.margins with ⟨uLow', uHigh', vLow', vHigh'⟩
          have rest := advanced.v_toNat le
          refine ⟨nonzero, positive, quotient, .digits ?_ ?_ ?_ ?_ (Or.inl ?_), ?_⟩
          · rw [advanced.u, uLow', uHigh']
            exact second
          · rw [rest, vLow', vHigh']
            exact remainder
          · rw [advanced.u, uHigh']
            exact vFits
          · rw [rest, vHigh']
            omega
          · rw [rest, vHigh', advanced.u, uLow']
            exact apart.le
          · omega

/-! ### All rounds -/

/-- Where the loop is: at some state of Euclid's algorithm, with the cofactors that lead there. -/
structure Position (scale : Nat) (start : XgcdState) (last : Bool) (state : Lehmer) : Prop where
  fits : Fits state
  current : ∃ current, Leading scale current.w1 current.w2 last state ∧ Taken start current state

theorem round_position {scale : Nat} {start : XgcdState} {last : Bool} {state next : Lehmer}
    (position : Position scale start last state) (round : state.round last = some next) :
    Position scale start last next ∧ next.v.toNat < state.v.toNat := by
  rcases position.current with ⟨current, leading, taken⟩
  rcases Option.bind_eq_some_iff.mp round with ⟨q, found, took⟩
  have nonzero : q ≠ 0 := by
    cases last with
    | true =>
        cases leading with
        | whole first second ordered => exact (quotient_whole (by omega) found).1
    | false => exact (quotient_digits leading found).1
  have advanced := take_advanced position.fits nonzero took
  rcases round_leading leading found advanced with ⟨-, more, quotient, leading', less⟩
  exact ⟨⟨advanced.fits position.fits nonzero, xgcdStep current, leading',
    advanced.taken position.fits taken more quotient⟩, less⟩

theorem loop_position {scale : Nat} {start : XgcdState} {last : Bool} : ∀ {fuel : Nat}
    {state : Lehmer}, Position scale start last state →
    Position scale start last (loop last fuel state)
  | 0, _, position => position
  | fuel + 1, state, position => by
      rw [loop]
      split
      · exact position
      · rename_i round
        exact loop_position (round_position position round).1

/-- The loop is left where no quotient can be taken any more, not for want of fuel. -/
theorem loop_stops {scale : Nat} {start : XgcdState} {last : Bool} : ∀ {fuel : Nat}
    {state : Lehmer}, Position scale start last state → state.v.toNat < fuel →
    (loop last fuel state).round last = none
  | 0, _, _, short => absurd short (Nat.not_lt_zero _)
  | fuel + 1, state, position, enough => by
      rw [loop]
      split
      · assumption
      · rename_i round
        rcases round_position position round with ⟨next, less⟩
        exact loop_stops next (by omega)

end Lehmer

end Penglai.Miracl
