import Penglai.Miracl.QuotientDigit

namespace Penglai.Miracl

/-! # The loop of a long division

The rounds go down the words of the dividend. The quotient loses a leading zero as
soon as it is found, and is stored only where the caller asks for it. -/

/-- One round, `j` rounds after the first: the words of the dividend and of the quotient, and
`w00`. -/
def divideRound (y : Nat → UInt32) (y0 top : Nat) (stores : Bool) (j : Nat)
    (state : (Nat → UInt32) × (Nat → UInt32) × Nat) : (Nat → UInt32) × (Nat → UInt32) × Nat :=
  let (w0g, zg, w00) := state
  let k := top - 1 - j
  let (attemp, w0g) := quotientDigit y y0 k w0g
  let m := k + 1 - y0
  if k + 1 = w00 ∧ attemp = 0 then (w0g, zg, w00 - 1)
  else if stores then (w0g, Function.update zg m attemp, w00)
  else (w0g, zg, w00)

def longDivision (y : Nat → UInt32) (y0 w00 : Nat) (stores : Bool) (w0g zg : Nat → UInt32) :
    (Nat → UInt32) × (Nat → UInt32) × Nat :=
  forRange 0 (w00 + 1 - y0) (divideRound y y0 w00 stores) (w0g, zg, w00)

structure Stored (n m rounds : Nat) (zg : Nat → UInt32) (w00 quotient : Nat) : Prop where
  total : Big.below zg rounds = quotient
  low : ∀ i < m, zg i = 0
  high : ∀ i, w00 + 1 ≤ i + (n + 2) → zg i = 0

structure LongDivided (y : Nat → UInt32) (n rounds : Nat) (stores : Bool) (dividend m : Nat)
    (state : (Nat → UInt32) × (Nat → UInt32) × Nat) : Prop where
  zeros : ∀ i, m + (n + 2) ≤ i → state.1 i = 0
  less : Big.below (fun i => state.1 (m + i)) (n + 2) < Big.below y (n + 2)
  quotient : ∃ quotient, quotient * Big.below y (n + 2) + Big.below state.1 (m + (n + 2)) = dividend ∧
    (stores = true → Stored n m rounds state.2.1 state.2.2 quotient)
  length : m + (n + 1) ≤ state.2.2
  bound : state.2.2 ≤ rounds + (n + 1)

section Loop

variable {y : Nat → UInt32} {n rounds dividend m : Nat} {stores : Bool}

theorem below_update_zero {w : Nat → UInt32} {place count : Nat} (inside : place < count)
    (zero : w place = 0) (word : UInt32) : Big.below (Function.update w place word) count =
      Big.below w count + word.toNat * wordBase ^ place := by
  rcases Nat.exists_eq_add_of_le (Nat.succ_le_of_lt inside) with ⟨above, rfl⟩
  have behind : Big.below (fun i => Function.update w place word (place.succ + i)) above =
      Big.below (fun i => w (place.succ + i)) above :=
    Big.below_congr fun i _ =>
      Function.update_of_ne (Nat.ne_of_gt (Nat.lt_of_lt_of_le (Nat.lt_succ_self place)
        (Nat.le_add_right _ i))) _ _
  rw [Big.below_append, Big.below_append w, behind, Big.below_succ, Big.below_succ,
    Function.update_self, Big.below_update_above (Nat.le_refl place), zero, UInt32.toNat_zero]
  ring

theorem LongDivided.dividing (normalised : wordBase ≤ 2 * (y (n + 1)).toNat)
    {state : (Nat → UInt32) × (Nat → UInt32) × Nat}
    (divided : LongDivided y n rounds stores dividend (m + 1) state) :
    Dividing y n m state.1 where
  normalised := normalised
  oneDigit := by
    have less := divided.less
    have word := Big.word_lt (state.1 m)
    have first := Big.below_append (fun i => state.1 (m + i)) 1 (n + 2)
    rw [Big.below_succ, Big.below_zero, pow_zero, mul_one, zero_add, pow_one, add_zero,
      Nat.add_comm 1] at first
    have rest : Big.below (fun i => state.1 (m + (1 + i))) (n + 2) =
        Big.below (fun i => state.1 (m + 1 + i)) (n + 2) := by
      simp only [Nat.add_assoc]
    rw [first, rest]
    have := Nat.mul_le_mul_left wordBase (Nat.succ_le_of_lt less)
    rw [Nat.mul_succ, Nat.mul_comm wordBase (Big.below y _)] at this
    omega

theorem rounded_top {w0g w1 : Nat → UInt32} {attemp : UInt32}
    (rounded : Rounded y n m w0g attemp w1) (positive : 0 < Big.below y (n + 2)) :
    w1 (m + (n + 2)) = 0 ∧ Big.below (fun i => w1 (m + i)) (n + 2) < Big.below y (n + 2) := by
  have small := Nat.mod_lt (Big.below (fun i => w0g (m + i)) (n + 3)) positive
  rw [← rounded.words, below_split] at small
  refine ⟨?_, (Nat.le_add_right _ _).trans_lt small⟩
  have bound := Big.below_lt y (n + 2)
  apply UInt32.toNat_inj.mp
  by_contra some
  have := Nat.le_mul_of_pos_right (wordBase ^ (n + 2)) (Nat.pos_of_ne_zero some)
  omega

theorem rounded_total {w0g w1 : Nat → UInt32} {attemp : UInt32}
    (rounded : Rounded y n m w0g attemp w1) (top : w1 (m + (n + 2)) = 0) :
    attemp.toNat * wordBase ^ m * Big.below y (n + 2) + Big.below w1 (m + (n + 2)) =
      Big.below w0g (m + 1 + (n + 2)) := by
  have words := rounded.words
  have division := Nat.div_add_mod (Big.below (fun i => w0g (m + i)) (n + 3)) (Big.below y (n + 2))
  rw [← rounded.digit, ← words, below_split, top, UInt32.toNat_zero, mul_zero, add_zero] at division
  rw [Big.below_append w1, Big.below_congr rounded.front,
    show m + 1 + (n + 2) = m + (n + 3) by omega, Big.below_append w0g, ← division]
  ring

/-- Storing a digit that is not a leading zero. -/
theorem stored_step {zg : Nat → UInt32} {w00 quotient : Nat} (attemp : UInt32)
    (inside : m < rounds) (length : m + (n + 1) < w00)
    (stored : Stored n (m + 1) rounds zg w00 quotient) :
    Stored n m rounds (Function.update zg m attemp) w00
      (quotient + attemp.toNat * wordBase ^ m) where
  total := by
    rw [below_update_zero inside (stored.low m (Nat.lt_succ_self m)), stored.total]
  low := fun i before =>
    (Function.update_of_ne (Nat.ne_of_lt before) _ _).trans (stored.low i (by omega))
  high := fun i above =>
    (Function.update_of_ne (by omega : i ≠ m) _ _).trans (stored.high i above)

theorem stored_drop {zg : Nat → UInt32} {quotient : Nat}
    (stored : Stored n (m + 1) rounds zg (m + (n + 1) + 1) quotient) :
    Stored n m rounds zg (m + (n + 1)) quotient where
  total := stored.total
  low := fun i before => stored.low i (by omega)
  high := fun i above => by
    rcases Nat.lt_or_ge i (m + 1) with below | behind
    · exact stored.low i below
    · exact stored.high i (by omega)

theorem longDivided_step {top : Nat} (normalised : wordBase ≤ 2 * (y (n + 1)).toNat)
    (start : top = rounds + (n + 1)) {j : Nat} (inside : m + 1 + j = rounds)
    {state : (Nat → UInt32) × (Nat → UInt32) × Nat}
    (divided : LongDivided y n rounds stores dividend (m + 1) state) :
    LongDivided y n rounds stores dividend m (divideRound y (n + 2) top stores j state) := by
  rcases state with ⟨w0g, zg, w00⟩
  have rounded := quotientDigit_rounded (divided.dividing normalised)
  rcases rounded_top rounded (divided.dividing normalised).leading.positive with ⟨topZero, less⟩
  have total := rounded_total rounded topZero
  rcases divided.quotient with ⟨quotient, sum, stored⟩
  have length := divided.length
  have bound := divided.bound
  have places : top - 1 - j = m + (n + 1) ∧ m + (n + 1) + 1 - (n + 2) = m := by omega
  simp only [divideRound, places]
  generalize quotientDigit y (n + 2) (m + (n + 1)) w0g = round at rounded topZero less total ⊢
  rcases round with ⟨attemp, w1⟩
  simp only at rounded topZero less total sum stored length bound ⊢
  have zeros : ∀ i, m + (n + 2) ≤ i → w1 i = 0 := by
    intro i above
    rcases Nat.eq_or_lt_of_le above with rfl | behind
    · exact topZero
    · exact (rounded.behind i (by omega)).trans (divided.zeros i (by omega))
  have next : (quotient + attemp.toNat * wordBase ^ m) * Big.below y (n + 2) +
      Big.below w1 (m + (n + 2)) = dividend := by
    rw [add_mul, add_assoc, total, sum]
  split
  · rename_i leading
    rcases leading with ⟨last, zero⟩
    rw [zero, UInt32.toNat_zero, zero_mul, add_zero] at next
    rw [← last] at stored bound ⊢
    exact ⟨zeros, less, ⟨quotient, next, fun stores => stored_drop (stored stores)⟩, Nat.le_refl _,
      Nat.le_of_succ_le bound⟩
  · have kept : m + (n + 1) ≤ w00 := by omega
    have digit := fun stores => stored_step attemp (by omega) (by omega) (stored stores)
    cases stores with
    | true => exact ⟨zeros, less, ⟨_, next, digit⟩, kept, bound⟩
    | false => exact ⟨zeros, less, ⟨_, next, fun never => absurd never (by decide)⟩, kept, bound⟩

structure Quotient (y : Nat → UInt32) (n : Nat) (stores : Bool) (dividend : Nat)
    (run : (Nat → UInt32) × (Nat → UInt32) × Nat) : Prop where
  zeros : ∀ i, n + 2 ≤ i → run.1 i = 0
  remainder : Big.below run.1 (n + 2) = dividend % Big.below y (n + 2)
  clean : stores = true → ∀ i, run.2.2 + 1 - (n + 2) ≤ i → run.2.1 i = 0
  quotient : stores = true →
    Big.below run.2.1 (run.2.2 + 1 - (n + 2)) = dividend / Big.below y (n + 2)

theorem longDivision_quotient {w0g zg : Nat → UInt32}
    (normalised : wordBase ≤ 2 * (y (n + 1)).toNat)
    (zeros : ∀ i, rounds + (n + 2) ≤ i → w0g i = 0)
    (less : Big.below (fun i => w0g (rounds + i)) (n + 2) < Big.below y (n + 2))
    (cleared : stores = true → ∀ i, zg i = 0) :
    Quotient y n stores (Big.below w0g (rounds + (n + 2)))
      (longDivision y (n + 2) (rounds + (n + 1)) stores w0g zg) := by
  have start : LongDivided y n rounds stores (Big.below w0g (rounds + (n + 2))) rounds
      (w0g, zg, rounds + (n + 1)) := by
    refine ⟨zeros, less, ⟨0, by rw [zero_mul, zero_add], fun stores => ?_⟩, Nat.le_refl _,
      Nat.le_refl _⟩
    have empty := cleared stores
    refine ⟨numeral_eq_zero fun i _ => ?_, fun i _ => empty i, fun i _ => empty i⟩
    exact congrArg UInt32.toNat (empty i)
  have loop : rounds ≤ rounds → LongDivided y n rounds stores (Big.below w0g (rounds + (n + 2)))
      (rounds - rounds) (forRange 0 rounds (divideRound y (n + 2) (rounds + (n + 1)) stores)
        (w0g, zg, rounds + (n + 1))) := by
    apply forRange_invariant fun j state => j ≤ rounds →
      LongDivided y n rounds stores (Big.below w0g (rounds + (n + 2))) (rounds - j) state
    · exact fun _ => start
    · intro j inside state divided within
      rw [Nat.zero_add]
      have before := divided (Nat.le_of_succ_le within)
      rw [show rounds - j = rounds - (j + 1) + 1 by omega] at before
      exact longDivided_step normalised rfl (by omega) before
  have count : rounds + (n + 1) + 1 - (n + 2) = rounds := by omega
  rw [longDivision, count]
  have final := loop (Nat.le_refl rounds)
  rw [Nat.sub_self] at final
  generalize forRange 0 rounds _ _ = run at final ⊢
  rcases final.quotient with ⟨quotient, sum, stored⟩
  have small := final.less
  have bound := final.bound
  simp only [Nat.zero_add] at small sum
  rw [Nat.mul_comm] at sum
  constructor
  · exact fun i above => final.zeros i (by omega)
  · rw [← sum, Nat.mul_add_mod, Nat.mod_eq_of_lt small]
  · exact fun stores i above => (stored stores).high i (by omega)
  · intro stores
    rw [← sum, Nat.mul_add_div (Nat.zero_lt_of_lt small), Nat.div_eq_of_lt small, add_zero,
      ← (stored stores).total]
    exact (Big.below_extend (by omega) fun i above => (stored stores).high i (by omega)).symm

end Loop

end Penglai.Miracl
