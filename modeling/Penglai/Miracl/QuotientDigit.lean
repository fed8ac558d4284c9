import Penglai.Foundation.LongDivision
import Penglai.Miracl.Scaling

namespace Penglai.Miracl

/-! # A digit of a long quotient

The body of the loop of `divide`: the guess from the upper words, the partial
subtraction, and the compensation for a guess that was one too large. -/

/-! ## The guess -/

def refineGuess (ldy sdy low : UInt32) : (rounds : Nat) → (attemp ra : UInt32) → UInt32
  | 0, attemp, _ => attemp
  | rounds + 1, attemp, ra =>
      let dble := attemp.toUInt64 * sdy.toUInt64
      let r := dble.toUInt32
      let tst := (dble >>> 32).toUInt32
      if tst < ra ∨ tst = ra ∧ r ≤ low then attemp
      else if ra + ldy < ldy then attemp - 1
      else refineGuess ldy sdy low rounds (attemp - 1) (ra + ldy)

/-- The first guess, and its refinement. Two rounds are all that a normalised divisor
leaves to do. -/
def guessDigit (ldy sdy high middle low : UInt32) : UInt32 :=
  if high = ldy then
    let ra := ldy + middle
    if ra < ldy then -1 else refineGuess ldy sdy low 2 (-1) ra
  else
    let (attemp, ra) := divWords middle high ldy
    refineGuess ldy sdy low 2 attemp ra

theorem toNat_mul_halves (x y : UInt32) :
    (x.toUInt64 * y.toUInt64).toUInt32.toNat +
      wordBase * ((x.toUInt64 * y.toUInt64) >>> 32).toUInt32.toNat = x.toNat * y.toNat := by
  have balance := mulWords_balance x y 0 0
  simpa [mulWords] using balance

theorem fits_iff {attemp sdy ra low : UInt32} :
    (((attemp.toUInt64 * sdy.toUInt64) >>> 32).toUInt32 < ra ∨
      ((attemp.toUInt64 * sdy.toUInt64) >>> 32).toUInt32 = ra ∧
        (attemp.toUInt64 * sdy.toUInt64).toUInt32 ≤ low) ↔
      attemp.toNat * sdy.toNat ≤ ra.toNat * wordBase + low.toNat := by
  have product := toNat_mul_halves attemp sdy
  generalize (attemp.toUInt64 * sdy.toUInt64).toUInt32 = r,
    ((attemp.toUInt64 * sdy.toUInt64) >>> 32).toUInt32 = tst at product ⊢
  have rBound := Big.word_lt r
  have lowBound := Big.word_lt low
  rw [← product, UInt32.lt_iff_toNat_lt, UInt32.le_iff_toNat_le, ← UInt32.toNat_inj]
  simp only [wordBase] at *
  omega

theorem add_lt_iff {x y : UInt32} : x + y < y ↔ wordBase ≤ x.toNat + y.toNat := by
  have xBound := x.toNat_lt
  have yBound := y.toNat_lt
  rw [UInt32.lt_iff_toNat_lt, UInt32.toNat_add, wordBase]
  omega

theorem toNat_add_of_fits {x y : UInt32} (fits : ¬wordBase ≤ x.toNat + y.toNat) :
    (x + y).toNat = x.toNat + y.toNat := by
  rw [UInt32.toNat_add]
  exact Nat.mod_eq_of_lt (Nat.not_le.mp fits)

section Guess

variable {ldy sdy low : UInt32} {upper : Nat}

/-- A remainder of more than a word leaves nothing to refine. -/
theorem le_guess_of_wrapped (leading : 0 < ldy.toNat) {attemp : UInt32} {rest : Nat}
    (parts : attemp.toNat * ldy.toNat + rest = upper) (wrapped : wordBase ≤ rest) :
    attemp.toNat ≤
      digitGuess wordBase (ldy.toNat * wordBase + sdy.toNat) (upper * wordBase + low.toNat) := by
  apply le_digitGuess (Nat.mul_pos leading Big.wordBase_pos) (Big.word_lt attemp) parts
  calc attemp.toNat * sdy.toNat
      ≤ wordBase * wordBase := Nat.mul_le_mul (Big.word_lt _).le (Big.word_lt _).le
    _ ≤ rest * wordBase := Nat.mul_le_mul_right _ wrapped
    _ ≤ rest * wordBase + low.toNat := Nat.le_add_right _ _

theorem refineGuess_eq (leading : 0 < ldy.toNat) :
    ∀ {rounds : Nat} {attemp ra : UInt32}, attemp.toNat * ldy.toNat + ra.toNat = upper →
      wordBase ≤ ra.toNat + rounds * ldy.toNat →
      digitGuess wordBase (ldy.toNat * wordBase + sdy.toNat) (upper * wordBase + low.toNat) ≤
        attemp.toNat →
      (refineGuess ldy sdy low rounds attemp ra).toNat =
        digitGuess wordBase (ldy.toNat * wordBase + sdy.toNat) (upper * wordBase + low.toNat) := by
  have positive := Nat.mul_pos leading Big.wordBase_pos
  intro rounds
  induction rounds with
  | zero =>
      intro attemp ra _ enough _
      have := Big.word_lt ra
      omega
  | succ rounds induction =>
      intro attemp ra parts enough bound
      simp only [refineGuess, fits_iff, add_lt_iff]
      split
      · rename_i fits
        exact Nat.le_antisymm (le_digitGuess positive (Big.word_lt _) parts fits) bound
      · rename_i exceeds
        have below := digitGuess_lt positive parts (Nat.not_le.mp exceeds)
        have one : 1 ≤ attemp.toNat := by omega
        have previous : (attemp - 1).toNat = attemp.toNat - 1 :=
          UInt32.toNat_sub_of_le _ _ (UInt32.le_iff_toNat_le.mpr one)
        have again : (attemp - 1).toNat * ldy.toNat + (ra.toNat + ldy.toNat) = upper := by
          rw [← parts, ← Nat.sub_add_cancel one, previous]
          ring
        split
        · rename_i wrapped
          exact Nat.le_antisymm (le_guess_of_wrapped leading again wrapped) (by omega)
        · rename_i fits
          have sum := toNat_add_of_fits fits
          apply induction
          · rw [sum, again]
          · rw [sum]
            rw [add_mul, one_mul] at enough
            omega
          · omega

/-- The guess is the best that the upper two words of a normalised divisor and the upper
three of the dividend allow. -/
theorem guessDigit_eq {high middle : UInt32} (normalised : wordBase ≤ 2 * ldy.toNat)
    (less : high.toNat ≤ ldy.toNat) :
    (guessDigit ldy sdy high middle low).toNat =
      digitGuess wordBase (ldy.toNat * wordBase + sdy.toNat)
        ((high.toNat * wordBase + middle.toNat) * wordBase + low.toNat) := by
  have leading : 0 < ldy.toNat := by
    have := Big.wordBase_pos
    omega
  have positive := Nat.mul_pos leading Big.wordBase_pos
  rw [guessDigit]
  split
  · rename_i equal
    have largest : (-1 : UInt32).toNat = wordBase - 1 := rfl
    have parts : (-1 : UInt32).toNat * ldy.toNat + (ldy.toNat + middle.toNat) =
        high.toNat * wordBase + middle.toNat := by
      rw [largest, equal, ← add_assoc, ← Nat.succ_mul, Nat.succ_eq_add_one,
        Nat.sub_add_cancel Big.wordBase_pos, Nat.mul_comm]
    have bound : digitGuess wordBase (ldy.toNat * wordBase + sdy.toNat)
        ((high.toNat * wordBase + middle.toNat) * wordBase + low.toNat) ≤ (-1 : UInt32).toNat :=
      Nat.min_le_left _ _
    simp only [add_comm ldy middle, add_lt_iff]
    split
    · rename_i wrapped
      exact Nat.le_antisymm (le_guess_of_wrapped leading parts (by omega)) bound
    · rename_i fits
      have sum := toNat_add_of_fits fits
      exact refineGuess_eq leading (by rw [sum, ← parts]; omega) (by omega) bound
  · rename_i differ
    have strict : high.toNat < ldy.toNat :=
      lt_of_le_of_ne less fun same => differ (UInt32.toNat_inj.mp same)
    rcases divWords_balance middle strict with ⟨parts, small⟩
    generalize divWords middle high ldy = division at parts small ⊢
    rcases division with ⟨attemp, ra⟩
    simp only at parts small ⊢
    rw [Nat.add_comm, Nat.mul_comm wordBase] at parts
    apply refineGuess_eq leading
    · rw [parts, Nat.mul_comm]
    · omega
    · have quotient : (high.toNat * wordBase + middle.toNat) / ldy.toNat = attemp.toNat := by
        rw [parts, Nat.mul_add_div leading, Nat.div_eq_of_lt small, add_zero]
      exact (digitGuess_le positive (Big.word_lt low)).trans_eq quotient

end Guess

/-! ## The partial subtraction -/

def submulWords (attemp y borrow word : UInt32) : UInt32 × UInt32 :=
  let (dig, borrow) := mulWords attemp y borrow 0
  (word - dig, if word < dig then borrow + 1 else borrow)

def partialSubtraction (attemp : UInt32) (y : Nat → UInt32) (m y0 : Nat) (w0g : Nat → UInt32) :
    (Nat → UInt32) × UInt32 :=
  forRange 0 y0
    (sweepStep (m + ·) fun w0g i borrow => submulWords attemp (y i) borrow (w0g (m + i))) (w0g, 0)

def compensation (y : Nat → UInt32) (m y0 : Nat) (w0g : Nat → UInt32) :
    (Nat → UInt32) × UInt32 :=
  forRange 0 y0
    (sweepStep (m + ·) fun w0g i carry => addWords (y i) (w0g (m + i)) carry) (w0g, 0)

def quotientDigit (y : Nat → UInt32) (y0 k : Nat) (w0g : Nat → UInt32) :
    UInt32 × (Nat → UInt32) :=
  let attemp := guessDigit (y (y0 - 1)) (y (y0 - 2)) (w0g (k + 1)) (w0g k) (w0g (k - 1))
  let m := k + 1 - y0
  if attemp > 0 then
    let (w0g, borrow) := partialSubtraction attemp y m y0 w0g
    if w0g (k + 1) < borrow then
      (attemp - 1, (compensation y m y0 (Function.update w0g (k + 1) 0)).1)
    else (attemp, Function.update w0g (k + 1) (w0g (k + 1) - borrow))
  else (attemp, w0g)

theorem submulWords_balance (attemp y borrow word : UInt32) :
    word.toNat + wordBase * (submulWords attemp y borrow word).2.toNat =
      (submulWords attemp y borrow word).1.toNat + attemp.toNat * y.toNat + borrow.toNat := by
  have product : attemp.toNat * y.toNat ≤ (2 ^ 32 - 1) * (2 ^ 32 - 1) := by
    have := attemp.toNat_lt
    have := y.toNat_lt
    exact Nat.mul_le_mul (by omega) (by omega)
  have balance := mulWords_balance attemp y borrow 0
  have borrowBound := borrow.toNat_lt
  rw [submulWords]
  generalize mulWords attemp y borrow 0 = columns at balance ⊢
  rcases columns with ⟨dig, high⟩
  have wordBound := word.toNat_lt
  have digBound := dig.toNat_lt
  have difference : (word - dig).toNat = (2 ^ 32 - dig.toNat + word.toNat) % 2 ^ 32 :=
    UInt32.toNat_sub word dig
  simp only [UInt32.toNat_zero, add_zero, wordBase, UInt32.lt_iff_toNat_lt] at balance ⊢
  split
  · have sum : (high + 1).toNat = (high.toNat + 1) % 2 ^ 32 := UInt32.toNat_add high 1
    omega
  · omega

section Rounds

variable (y w0g : Nat → UInt32) (m y0 : Nat)

theorem partialSubtraction_total (attemp : UInt32) :
    Framed m y0 w0g (partialSubtraction attemp y m y0 w0g).1 ∧
      Big.below (fun i => w0g (m + i)) y0 +
          wordBase ^ y0 * (partialSubtraction attemp y m y0 w0g).2.toNat =
        Big.below (fun i => (partialSubtraction attemp y m y0 w0g).1 (m + i)) y0 +
          attemp.toNat * Big.below y y0 := by
  have swept := swept_row (fun i word borrow => submulWords attemp (y i) borrow word) m y0 w0g
  refine ⟨framed_of_swept swept, ?_⟩
  have balance := numeral_balance wordBase (fun i => (w0g (m + i)).toNat)
    (fun i => ((partialSubtraction attemp y m y0 w0g).1 (m + i)).toNat +
      attemp.toNat * (y i).toNat)
    (fun i => (carryInto
      (fun i borrow => submulWords attemp (y i) borrow (w0g (m + i))) 0 i).toNat) (fun _ => 0)
    (fun i (inside : i < y0) => by
      have column := submulWords_balance attemp (y i)
        (carryInto (fun i borrow => submulWords attemp (y i) borrow (w0g (m + i))) 0 i)
        (w0g (m + i))
      have written := swept.written i inside
      simp only [partialSubtraction, written, carryInto_succ, digitOf]
      omega)
  rw [numeral_add, numeral_mul] at balance
  rw [show (partialSubtraction attemp y m y0 w0g).2 = _ from swept.carry]
  simpa [Big.below] using balance

theorem compensation_total :
    Framed m y0 w0g (compensation y m y0 w0g).1 ∧
      Big.below (fun i => (compensation y m y0 w0g).1 (m + i)) y0 +
          wordBase ^ y0 * (compensation y m y0 w0g).2.toNat =
        Big.below y y0 + Big.below (fun i => w0g (m + i)) y0 ∧
      (compensation y m y0 w0g).2.toNat ≤ 1 := by
  have swept := swept_row (fun i word carry => addWords (y i) word carry) m y0 w0g
  exact ⟨framed_of_swept swept, swept_addWords swept⟩

end Rounds

/-! ## The digit -/

/-- A normalised divisor of `n + 2` words, and words of a dividend of which the upper
`n + 3` are worth less than the divisor with a zero word appended. -/
structure Dividing (y : Nat → UInt32) (n m : Nat) (w0g : Nat → UInt32) : Prop where
  normalised : wordBase ≤ 2 * (y (n + 1)).toNat
  oneDigit : Big.below (fun i => w0g (m + i)) (n + 3) < Big.below y (n + 2) * wordBase

section Digit

variable {y w0g : Nat → UInt32} {n m : Nat}

theorem below_update_top (final : Nat → UInt32) (count : Nat) (word : UInt32) :
    Big.below (fun i => Function.update final (m + count) word (m + i)) (count + 1) =
      Big.below (fun i => final (m + i)) count + word.toNat * wordBase ^ count := by
  rw [Big.below_succ, Function.update_self, Big.below_congr fun i inside =>
    Function.update_of_ne (Nat.ne_of_lt (Nat.add_lt_add_left inside m)) _ _]

theorem Framed.update_top {final : Nat → UInt32} {count : Nat} (framed : Framed m count w0g final)
    (word : UInt32) : Framed m (count + 1) w0g (Function.update final (m + count) word) where
  front := fun i before =>
    (Function.update_of_ne (Nat.ne_of_lt (before.trans_le (Nat.le_add_right m count))) _ _).trans
      (framed.front i before)
  behind := fun i after =>
    (Function.update_of_ne (Nat.ne_of_gt (Nat.lt_of_succ_le after)) _ _).trans
      (framed.behind i (Nat.le_of_succ_le after))

theorem Dividing.leading (dividing : Dividing y n m w0g) :
    Leading wordBase (wordBase ^ n) (Big.below y (n + 2))
      (Big.below (fun i => w0g (m + i)) (n + 3))
      ((y (n + 1)).toNat * wordBase + (y n).toNat)
      (((w0g (m + (n + 2))).toNat * wordBase + (w0g (m + (n + 1))).toNat) * wordBase +
        (w0g (m + n)).toNat) := by
  have divisor : Big.below y (n + 2) =
      Big.below y n + ((y (n + 1)).toNat * wordBase + (y n).toNat) * wordBase ^ n := by
    rw [Big.below_succ, Big.below_succ, pow_succ]
    ring
  have dividend : Big.below (fun i => w0g (m + i)) (n + 3) =
      Big.below (fun i => w0g (m + i)) n +
        (((w0g (m + (n + 2))).toNat * wordBase + (w0g (m + (n + 1))).toNat) * wordBase +
          (w0g (m + n)).toNat) * wordBase ^ n := by
    rw [Big.below_succ, Big.below_succ, Big.below_succ, pow_succ, pow_succ]
    ring
  have below := Big.below_lt y n
  have below' := Big.below_lt (fun i => w0g (m + i)) n
  constructor
  · rw [divisor]
    exact Nat.le_add_left _ _
  · rw [divisor, add_mul _ 1, one_mul, Nat.add_comm]
    omega
  · rw [dividend]
    exact Nat.le_add_left _ _
  · rw [dividend, add_mul _ 1, one_mul, Nat.add_comm]
    omega
  · have := dividing.normalised
    have one : 1 ≤ (y (n + 1)).toNat := by
      have := Big.wordBase_pos
      omega
    exact (Nat.le_mul_of_pos_left _ one).trans (Nat.le_add_right _ _)
  · exact dividing.oneDigit

theorem Dividing.guess (dividing : Dividing y n m w0g) :
    (guessDigit (y (n + 1)) (y n) (w0g (m + (n + 2))) (w0g (m + (n + 1))) (w0g (m + n))).toNat =
      digitGuess wordBase ((y (n + 1)).toNat * wordBase + (y n).toNat)
        (((w0g (m + (n + 2))).toNat * wordBase + (w0g (m + (n + 1))).toNat) * wordBase +
          (w0g (m + n)).toNat) := by
  apply guessDigit_eq dividing.normalised
  have head := dividing.leading.head_lt
  have := Big.word_lt (y n)
  by_contra more
  have : ((y (n + 1)).toNat + 1) * wordBase ≤ (w0g (m + (n + 2))).toNat * wordBase :=
    Nat.mul_le_mul_right _ (Nat.not_le.mp more)
  rw [add_mul, one_mul] at this
  have chain := Nat.mul_le_mul_right wordBase (show
    (y (n + 1)).toNat * wordBase + (y n).toNat + 1 ≤
      (w0g (m + (n + 2))).toNat * wordBase + (w0g (m + (n + 1))).toNat by omega)
  omega

/-- What a round of the long division leaves: the digit of the quotient, and the remainder in
place of the dividend. -/
structure Rounded (y : Nat → UInt32) (n m : Nat) (w0g : Nat → UInt32) (attemp : UInt32)
    (final : Nat → UInt32) : Prop extends Framed m (n + 3) w0g final where
  digit : attemp.toNat = Big.below (fun i => w0g (m + i)) (n + 3) / Big.below y (n + 2)
  words : Big.below (fun i => final (m + i)) (n + 3) =
    Big.below (fun i => w0g (m + i)) (n + 3) % Big.below y (n + 2)

theorem below_split (w0g : Nat → UInt32) (m n : Nat) :
    Big.below (fun i => w0g (m + i)) (n + 3) = Big.below (fun i => w0g (m + i)) (n + 2) +
      wordBase ^ (n + 2) * (w0g (m + (n + 2))).toNat := by
  rw [Big.below_succ, Nat.mul_comm]

section Subtracted

variable {attemp borrow : UInt32} {w1 : Nat → UInt32} (dividing : Dividing y n m w0g)
  (framed : Framed m (n + 2) w0g w1)
  (balance : Big.below (fun i => w0g (m + i)) (n + 2) + wordBase ^ (n + 2) * borrow.toNat =
    Big.below (fun i => w1 (m + i)) (n + 2) + attemp.toNat * Big.below y (n + 2))

include balance

theorem borrowed_iff : w0g (m + (n + 2)) < borrow ↔
    Big.below (fun i => w0g (m + i)) (n + 3) < attemp.toNat * Big.below y (n + 2) := by
  rw [UInt32.lt_iff_toNat_lt, below_split]
  exact lt_borrow_iff _ balance (Big.below_lt _ _)

include framed

theorem rounded_of_right
    (right : attemp.toNat = Big.below (fun i => w0g (m + i)) (n + 3) / Big.below y (n + 2))
    (enough : ¬w0g (m + (n + 2)) < borrow) :
    Rounded y n m w0g attemp
      (Function.update w1 (m + (n + 2)) (w0g (m + (n + 2)) - borrow)) where
  toFramed := framed.update_top _
  digit := right
  words := by
    have le := UInt32.not_lt.mp enough
    have total := subtracted_total _ balance (UInt32.le_iff_toNat_le.mp le)
    have division := Nat.div_add_mod (Big.below (fun i => w0g (m + i)) (n + 3))
      (Big.below y (n + 2))
    rw [below_update_top, UInt32.toNat_sub_of_le _ _ le, Nat.mul_comm, total, ← below_split, right,
      Nat.mul_comm]
    omega

include dividing

theorem rounded_of_oneMore
    (oneMore : attemp.toNat = Big.below (fun i => w0g (m + i)) (n + 3) / Big.below y (n + 2) + 1)
    (exceeds : Big.below (fun i => w0g (m + i)) (n + 3) < attemp.toNat * Big.below y (n + 2)) :
    Rounded y n m w0g (attemp - 1)
      (compensation y m (n + 2) (Function.update w1 (m + (n + 2)) 0)).1 := by
  have one : 1 ≤ attemp.toNat := oneMore ▸ Nat.succ_pos _
  have division := Nat.div_add_mod (Big.below (fun i => w0g (m + i)) (n + 3)) (Big.below y (n + 2))
  have smaller := Nat.mod_lt (Big.below (fun i => w0g (m + i)) (n + 3)) dividing.leading.positive
  have taken : attemp.toNat * Big.below y (n + 2) =
      Big.below y (n + 2) * (Big.below (fun i => w0g (m + i)) (n + 3) / Big.below y (n + 2)) +
        Big.below y (n + 2) := by
    rw [oneMore]
    ring
  have cleared : Big.below (fun i => Function.update w1 (m + (n + 2)) 0 (m + i)) (n + 2) =
      Big.below (fun i => w1 (m + i)) (n + 2) :=
    Big.below_congr fun i inside =>
      Function.update_of_ne (Nat.ne_of_lt (Nat.add_lt_add_left inside m)) _ _
  rcases compensation_total y (Function.update w1 (m + (n + 2)) 0) m (n + 2) with
    ⟨framed', back, bit⟩
  rw [cleared] at back
  have divisorBound := Big.below_lt y (n + 2)
  have split := below_split w0g m n
  have total := compensated_total (w0g (m + (n + 2))).toNat balance back bit (Big.below_lt _ _)
    (by omega) (by omega) (by omega)
  constructor
  · constructor
    · intro i before
      exact (framed'.front i before).trans ((framed.update_top 0).front i before)
    · intro i after
      exact (framed'.behind i (Nat.le_of_succ_le after)).trans
        ((framed.update_top 0).behind i after)
  · have previous : (attemp - 1).toNat = attemp.toNat - 1 :=
      UInt32.toNat_sub_of_le _ _ (UInt32.le_iff_toNat_le.mpr one)
    rw [previous, oneMore, Nat.add_sub_cancel]
  · rw [Big.below_succ, framed'.behind _ (Nat.le_refl _), Function.update_self, UInt32.toNat_zero,
      zero_mul, add_zero, total]
    omega

end Subtracted

theorem quotientDigit_rounded (dividing : Dividing y n m w0g) :
    Rounded y n m w0g (quotientDigit y (n + 2) (m + (n + 1)) w0g).1
      (quotientDigit y (n + 2) (m + (n + 1)) w0g).2 := by
  have leading := dividing.leading
  have low := leading.quotient_le_guess Big.one_lt_wordBase
  have high := leading.guess_le_quotient
  rw [← dividing.guess] at low high
  have places : n + 2 - 1 = n + 1 ∧ n + 2 - 2 = n ∧ m + (n + 1) + 1 = m + (n + 2) ∧
      m + (n + 1) - 1 = m + n ∧ m + (n + 2) - (n + 2) = m := by omega
  simp only [quotientDigit, places]
  generalize guessDigit _ _ _ _ _ = attemp at low high ⊢
  split
  · rcases partialSubtraction_total y w0g m (n + 2) attemp with ⟨framed, balance⟩
    have top := framed.behind (m + (n + 2)) (Nat.le_refl _)
    generalize partialSubtraction attemp y m (n + 2) w0g = run at framed balance top ⊢
    rcases run with ⟨w1, borrow⟩
    simp only at framed balance top ⊢
    have borrowed := borrowed_iff balance
    rw [top]
    rcases guess_cases low high leading.positive with ⟨right, fits⟩ | ⟨oneMore, exceeds⟩
    · have enough : ¬w0g (m + (n + 2)) < borrow := fun short => by
        have := borrowed.mp short
        omega
      rw [if_neg enough]
      exact rounded_of_right framed balance right enough
    · rw [if_pos (borrowed.mpr exceeds)]
      exact rounded_of_oneMore dividing framed balance oneMore exceeds
  · rename_i stopped
    have none : attemp.toNat = 0 :=
      Nat.le_zero.mp (UInt32.le_iff_toNat_le.mp (UInt32.not_lt.mp stopped))
    have noQuotient := Nat.le_zero.mp (none ▸ low)
    have division := Nat.div_add_mod (Big.below (fun i => w0g (m + i)) (n + 3))
      (Big.below y (n + 2))
    rw [noQuotient, mul_zero, zero_add] at division
    exact ⟨⟨fun _ _ => rfl, fun _ _ => rfl⟩, none.trans noQuotient.symm, division.symm⟩

end Digit

end Penglai.Miracl
