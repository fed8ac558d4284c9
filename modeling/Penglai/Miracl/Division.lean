import Penglai.Miracl.Addition
import Penglai.Miracl.QuotientLoop

namespace Penglai.Miracl

/-! # Division

`divide(x, y, z)` of `mrarth2.c`: `z` becomes the quotient and `x` the remainder. With
`x` for `z` only the quotient is delivered, with `y` for `z` only the remainder, and
the divisor keeps its value in both cases. -/

namespace Mip

/-! ## The routine -/

def normFactor (top : UInt32) : UInt32 :=
  let r := top + 1
  if r = 0 then 1 else (((1 : UInt64) <<< 32) / r.toUInt64).toUInt32

def normalise (x y : Slot) (mip : Mip) : Mip × UInt32 :=
  let mip := if x ≠ y then mip.copy x y else mip
  let len := (mip.bigs y).len
  let norm := normFactor ((mip.bigs y).w (len - 1))
  (if norm ≠ 1 then mip.mrPmul y norm y else mip, norm)

def orSign (x : Slot) (sign : Bool) (mip : Mip) : Mip :=
  mip.set x { mip.bigs x with minus := (mip.bigs x).minus || sign }

def putWord (x : Slot) (word : UInt32) (sign : Bool) (mip : Mip) : Mip :=
  let mip := mip.zero x
  let mip := mip.set x { mip.bigs x with w := Function.update (mip.bigs x).w 0 word }
  if word > 0 then mip.set x { mip.bigs x with minus := sign, len := 1 } else mip

/-- `while (mr_compare(w0, y) >= 0)`: the quotient is so small that it is counted. -/
def subtractions (y : Slot) : (rounds : Nat) → Mip → UInt32 → Mip × UInt32
  | 0, mip, d => (mip, d)
  | rounds + 1, mip, d =>
      if mip.mrCompare (.w 0) y ≥ 0 then subtractions y rounds (mip.mrPsub (.w 0) y (.w 0)) (d + 1)
      else (mip, d)

def smallQuotient (y : Slot) (x0 y0 : Nat) (mip : Mip) : Mip × UInt32 :=
  let w0 := mip.bigs (.w 0)
  let yg := (mip.bigs y).w
  if x0 = y0 then
    if x0 = 1 then
      let d := w0.w 0 / yg 0
      ((mip.set (.w 0) { w0 with w := Function.update w0.w 0 (w0.w 0 % yg 0) }).mrLzero (.w 0), d)
    else if w0.w (x0 - 1) / 4 < yg (x0 - 1) then subtractions y 4 mip 0
    else (mip, 0)
  else (mip, 0)

def divideLess (x y z : Slot) (sx sy sz : Bool) (d : UInt32) (mip : Mip) : Mip :=
  let mip :=
    if x ≠ z then
      let mip := mip.copy (.w 0) x
      if (mip.bigs x).len ≠ 0 then mip.orSign x sx else mip
    else mip
  let mip := if y ≠ z then mip.putWord z d sz else mip
  mip.orSign y sy

def divideWord (x y z : Slot) (sx sy sz : Bool) (mip : Mip) : Mip :=
  let (mip, r) := mip.mrSdiv (.w 0) ((mip.bigs y).w 0) (.w 0)
  let mip := if y ≠ z then (mip.copy (.w 0) z).orSign z sz else mip
  let mip := if x ≠ z then mip.putWord x r sx else mip
  mip.orSign y sy

/-- Both numbers are multiplied by the factor that normalises the divisor. The check of the
lengths stays off from there. -/
def scaleOperands (y z : Slot) (mip : Mip) : Mip × UInt32 :=
  let mip := if y ≠ z then mip.zero z else mip
  let (mip, d) := mip.normalise y y
  let mip := mip.setCheck false
  (if d ≠ 1 then mip.mrPmul (.w 0) d (.w 0) else mip, d)

def divideLoop (y z : Slot) (sz : Bool) (w00 y0 : Nat) (mip : Mip) : Mip :=
  let (w0g, zg, w00) :=
    longDivision (mip.bigs y).w y0 w00 (y ≠ z) (mip.bigs (.w 0)).w (mip.bigs z).w
  let mip := if y ≠ z then mip.set z ⟨sz, w00 + 1 - y0, zg⟩ else mip
  let mip := mip.set (.w 0) ⟨false, y0, w0g⟩
  (mip.mrLzero y).mrLzero z

def divideLong (x y z : Slot) (sx sy sz : Bool) (w00 y0 : Nat) (mip : Mip) : Mip :=
  let check := mip.check
  let (mip, d) := mip.scaleOperands y z
  let mip := mip.divideLoop y z sz w00 y0
  let mip :=
    if x ≠ z then
      let mip := mip.mrLzero (.w 0)
      let mip := if d ≠ 1 then (mip.mrSdiv (.w 0) d x).1 else mip.copy (.w 0) x
      if (mip.bigs x).len ≠ 0 then mip.orSign x sx else mip
    else mip
  let mip := if d ≠ 1 then (mip.mrSdiv y d y).1 else mip
  (mip.orSign y sy).setCheck check

def divideMagnitudes (x y z : Slot) (sx sy sz : Bool) (mip : Mip) : Mip :=
  let x0 := (mip.bigs x).len
  let y0 := (mip.bigs y).len
  let mip := mip.copy x (.w 0)
  let w00 := (mip.bigs (.w 0)).len
  if mip.check ∧ w00 + 1 > mip.nib + y0 then mip.berror .overflow
  else
    let (mip, d) := mip.smallQuotient y x0 y0
    if mip.mrCompare (.w 0) y < 0 then mip.divideLess x y z sx sy sz d
    else if y0 = 1 then mip.divideWord x y z sx sy sz
    else mip.divideLong x y z sx sy sz w00 y0

def divideArguments (x y : Slot) (mip : Mip) : Mip :=
  let mip := if x = y then mip.berror .badParameters else mip
  if (mip.bigs y).len = 0 then mip.berror .divByZero else mip

def divide (x y z : Slot) (mip : Mip) : Mip :=
  if mip.ernum.isSome then mip
  else
    let mip := mip.divideArguments x y
    if mip.ernum.isSome then mip
    else
      let sx := (mip.bigs x).minus
      let sy := (mip.bigs y).minus
      ((mip.absolute x).absolute y).divideMagnitudes x y z sx sy (sx != sy)

/-! ## Its parts -/

theorem absolute_eq {mip : Mip} {x : Slot} (normal : (mip.bigs x).Normal) :
    mip.absolute x = mip.set x (Big.ofNat (mip.bigs x).magnitude) := by
  have positive : ({ mip.bigs x with minus := false } : Big).Normal :=
    ⟨normal.clean, normal.top, fun _ => rfl⟩
  rw [absolute, positive.eq_ofNat rfl]
  rfl

theorem signed_eq {magnitude : Nat} (some : magnitude ≠ 0) (sign : Bool) :
    { Big.ofNat magnitude with minus := (Big.ofNat magnitude).minus || sign } =
      Big.ofInt (Big.signed sign magnitude) := by
  cases sign with
  | false => exact (Big.ofInt_natCast magnitude).symm
  | true =>
      rw [Big.signed, if_pos rfl, Big.ofInt, Int.natAbs_neg, Int.natAbs_natCast,
        decide_eq_true (by omega)]
      rfl

theorem orSign_eq {mip : Mip} {x : Slot} {magnitude : Nat} (some : magnitude ≠ 0)
    (number : mip.bigs x = Big.ofNat magnitude) (sign : Bool) :
    mip.orSign x sign = mip.set x (Big.ofInt (Big.signed sign magnitude)) := by
  rw [orSign, number, signed_eq some]

theorem ofNat_len_ne_zero {magnitude : Nat} : (Big.ofNat magnitude).len ≠ 0 ↔ magnitude ≠ 0 := by
  rw [not_iff_not, ← (Big.ofNat_normal magnitude).magnitude_eq_zero, Big.magnitude_ofNat]

theorem signUnlessZero {mip : Mip} {x : Slot} {magnitude : Nat} (sign : Bool) :
    (if ((mip.set x (Big.ofNat magnitude)).bigs x).len ≠ 0 then
      (mip.set x (Big.ofNat magnitude)).orSign x sign
    else mip.set x (Big.ofNat magnitude)) =
      mip.set x (Big.ofInt (Big.signed sign magnitude)) := by
  rw [bigs_set_self, ite_cond_congr (propext ofNat_len_ne_zero)]
  split
  · rename_i some
    rw [orSign_eq some (bigs_set_self _ _ _), set_set]
  · rename_i zero
    rw [not_not.mp zero]
    cases sign <;> rfl

theorem putWord_eq {mip : Mip} (clean : mip.Clean) (x : Slot) (word : UInt32) (sign : Bool) :
    mip.putWord x word sign = mip.set x (Big.ofInt (Big.signed sign word.toNat)) := by
  simp only [putWord, zero_eq x clean, bigs_set_self, set_set]
  split
  · rename_i some
    have positive : 0 < word.toNat := UInt32.lt_iff_toNat_lt.mp some
    rw [← signed_eq positive.ne', ← oneWord_eq positive, Bool.false_or]
  · rename_i none
    have zero : word = 0 := UInt32.le_antisymm (UInt32.not_lt.mp none) UInt32.zero_le
    have words : Function.update (Big.ofInt 0).w 0 0 = (Big.ofInt 0).w :=
      Function.update_eq_self_iff.mpr ((Big.ofInt_normal 0).clean 0 (Nat.zero_le 0)).symm
    rw [zero, words, UInt32.toNat_zero]
    cases sign <;> rfl

/-! ## The factor of the divisor -/

theorem value_ofNat {mip : Mip} {x : Slot} {magnitude : Nat}
    (number : mip.bigs x = Big.ofNat magnitude) : mip.value x = magnitude := by
  rw [value, number, ← Big.ofInt_natCast, Big.ofInt_value]

theorem scaled_eq {mip : Mip} (clean : mip.Clean) {x : Slot} {magnitude : Nat}
    (number : mip.bigs x = Big.ofNat magnitude) (d : UInt32)
    (fits : mip.check = true →
      magnitude * d.toNat < wordBase ^ max mip.nib (Big.wordCount magnitude)) :
    (if d ≠ 1 then mip.mrPmul x d x else mip) = mip.set x (Big.ofNat (magnitude * d.toNat)) := by
  split
  · have product := mrPmul_eq clean (x := x) (number ▸ Big.ofNat_normal magnitude) d x
      (by rw [number, Big.magnitude_ofNat]; exact fits)
    rw [product, value_ofNat number, ← Nat.cast_mul, Big.ofInt_natCast]
  · rename_i one
    rw [not_not.mp one, UInt32.toNat_one, mul_one, ← number, set_bigs]

theorem unscaled_eq {mip : Mip} (clean : mip.Clean) {x : Slot} {magnitude : Nat} {d : UInt32}
    (positive : 0 < d.toNat) (number : mip.bigs x = Big.ofNat (magnitude * d.toNat)) (z : Slot) :
    (if d ≠ 1 then (mip.mrSdiv x d z).1 else mip.copy x z) = mip.set z (Big.ofNat magnitude) := by
  split
  · rw [(mrSdiv_eq clean x positive z).1, value_ofNat number, ← Int.ofNat_tdiv,
      Nat.mul_div_cancel _ positive, Big.ofInt_natCast]
  · rename_i one
    rw [copy_eq x z clean, number, not_not.mp one, UInt32.toNat_one, mul_one]

theorem toNat_leading {magnitude n : Nat} (fits : magnitude < wordBase ^ (n + 1)) :
    ((Big.ofNat magnitude).w n).toNat = magnitude / wordBase ^ n := by
  rw [Big.toNat_word_ofNat, Nat.mod_eq_of_lt]
  exact Nat.div_lt_of_lt_mul (by rwa [← pow_succ])

theorem normFactor_eq {top : UInt32} (some : 0 < top.toNat) :
    (normFactor top).toNat = wordBase / (top.toNat + 1) := by
  have bound := top.toNat_lt
  have sum : (top + 1).toNat = (top.toNat + 1) % 2 ^ 32 := UInt32.toNat_add top 1
  rw [normFactor]
  split
  · rename_i wrapped
    rw [wrapped, UInt32.toNat_zero] at sum
    have : top.toNat + 1 = wordBase := by
      rw [wordBase]
      omega
    rw [this, Nat.div_self Big.wordBase_pos]
    rfl
  · rename_i fits
    have small : top.toNat + 1 < 2 ^ 32 := by
      by_contra wrapped
      have : (top + 1).toNat = 0 := by omega
      exact fits (UInt32.toNat_inj.mp this)
    have one : ((1 : UInt64) <<< 32).toNat = wordBase := rfl
    rw [UInt64.toNat_toUInt32, UInt64.toNat_div, UInt32.toNat_toUInt64, one, sum,
      Nat.mod_eq_of_lt small]
    apply Nat.mod_eq_of_lt
    exact Nat.div_lt_self Big.wordBase_pos (by omega)

theorem normalise_eq {mip : Mip} (clean : mip.Clean) {y : Slot} {Y n : Nat}
    (number : mip.bigs y = Big.ofNat Y) (length : Big.wordCount Y = n + 1) :
    ∃ d : UInt32, mip.normalise y y = (mip.set y (Big.ofNat (Y * d.toNat)), d) ∧
      0 < d.toNat ∧ Y * d.toNat < wordBase ^ (n + 1) ∧
      wordBase ≤ 2 * ((Big.ofNat (Y * d.toNat)).w n).toNat := by
  have low := Big.pow_le_of_wordCount length
  have high := Big.lt_pow_wordCount Y
  rw [length] at high
  have power : 0 < wordBase ^ n := Nat.pow_pos Big.wordBase_pos
  have leading := toNat_leading high
  have some : 0 < ((Big.ofNat Y).w n).toNat := leading ▸ Nat.div_pos low power
  have factor := normFactor_eq some
  have bound := Big.word_lt ((Big.ofNat Y).w n)
  rcases normalising_factor some bound with ⟨keeps, large⟩
  rw [← factor] at keeps large
  have positive : 0 < (normFactor ((Big.ofNat Y).w n)).toNat :=
    factor ▸ Nat.div_pos bound (Nat.succ_pos _)
  have returned : mip.normalise y y = (if normFactor ((Big.ofNat Y).w n) ≠ 1 then
      mip.mrPmul y (normFactor ((Big.ofNat Y).w n)) y else mip,
      normFactor ((Big.ofNat Y).w n)) := by
    have size : (Big.ofNat Y).len = n + 1 := length
    simp only [normalise, ne_eq, not_true_eq_false, if_false, number, size, Nat.add_sub_cancel]
  generalize normFactor ((Big.ofNat Y).w n) = d at *
  generalize ((Big.ofNat Y).w n).toNat = top at *
  have fits : Y * d.toNat < wordBase ^ (n + 1) := by
    have upper := Nat.lt_mul_div_succ Y power
    rw [← leading] at upper
    calc Y * d.toNat < wordBase ^ n * (top + 1) * d.toNat := Nat.mul_lt_mul_of_pos_right upper positive
      _ = d.toNat * (top + 1) * wordBase ^ n := by ring
      _ ≤ wordBase * wordBase ^ n := Nat.mul_le_mul_right _ keeps
      _ = wordBase ^ (n + 1) := by rw [pow_succ, Nat.mul_comm]
  refine ⟨d, ?_, positive, fits, ?_⟩
  · rw [returned, scaled_eq clean number d]
    intro _
    rw [length]
    exact fits.trans_le (Nat.pow_le_pow_right Big.wordBase_pos (Nat.le_max_right _ _))
  · rw [toNat_leading fits]
    have scaled : d.toNat * top ≤ Y * d.toNat / wordBase ^ n := by
      rw [Nat.le_div_iff_mul_le power, leading]
      calc d.toNat * (Y / wordBase ^ n) * wordBase ^ n
          = d.toNat * (Y / wordBase ^ n * wordBase ^ n) := mul_assoc _ _ _
        _ ≤ d.toNat * Y := Nat.mul_le_mul_left _ (Nat.div_mul_le_self _ _)
        _ = Y * d.toNat := Nat.mul_comm _ _
    have even : wordBase % 2 = 0 := rfl
    omega

/-! ## Quotients found by subtraction -/

theorem compare_ofNat {mip : Mip} {x y : Slot} {X Y : Nat} (xNumber : mip.bigs x = Big.ofNat X)
    (yNumber : mip.bigs y = Big.ofNat Y) : mip.mrCompare x y = ((X : Int) - Y).sign := by
  rw [mrCompare_eq (xNumber ▸ Big.ofNat_normal X) (yNumber ▸ Big.ofNat_normal Y),
    value_ofNat xNumber, value_ofNat yNumber]

theorem subtractions_eq {y : Slot} (apart : y ≠ .w 0) {Y : Nat} (positive : 0 < Y) :
    ∀ (rounds : Nat) {mip : Mip} {R : Nat} (d : UInt32), mip.Clean →
      mip.bigs (.w 0) = Big.ofNat R → mip.bigs y = Big.ofNat Y → R < rounds * Y →
      subtractions y rounds mip d =
        (mip.set (.w 0) (Big.ofNat (R % Y)), d + UInt32.ofNat (R / Y)) := by
  intro rounds
  induction rounds with
  | zero =>
      intro mip R d _ _ _ fits
      omega
  | succ rounds induction =>
      intro mip R d clean dividend divisor fits
      rw [subtractions, compare_ofNat dividend divisor]
      rcases Nat.lt_or_ge R Y with less | enough
      · rw [if_neg (by rw [Int.sign_eq_neg_one_of_neg (by omega)]; decide), Nat.mod_eq_of_lt less,
          Nat.div_eq_of_lt less, ← dividend, set_bigs, show UInt32.ofNat 0 = 0 from rfl,
          UInt32.add_zero]
      · have sign : ((R : Int) - Y).sign ≥ 0 := Int.sign_nonneg_iff.mpr (by omega)
        have difference : mip.mrPsub (.w 0) y (.w 0) = mip.set (.w 0) (Big.ofNat (R - Y)) := by
          have subtracted := mrPsub_eq clean (x := .w 0) (y := y)
            (divisor ▸ Big.ofNat_normal Y) (.w 0)
            (by rw [dividend, divisor, Big.magnitude_ofNat, Big.magnitude_ofNat]; exact enough)
          rwa [dividend, divisor, Big.magnitude_ofNat, Big.magnitude_ofNat] at subtracted
        rw [if_pos sign, difference, induction (d + 1) (clean.set (Big.ofNat_normal _).clean)
          (bigs_set_self _ _ _) ((bigs_set_of_ne _ _ apart).trans divisor)
          (by rw [Nat.succ_mul] at fits; omega), set_set]
        rw [Nat.mod_eq_sub_mod enough, Nat.div_eq_sub_div positive enough, UInt32.ofNat_add,
          UInt32.add_assoc, UInt32.add_comm 1]
        rfl

theorem wordRemainder {X Y : Nat} (size : Big.wordCount X = 1)
    (xWord : ((Big.ofNat X).w 0).toNat = X) (yWord : ((Big.ofNat Y).w 0).toNat = Y) :
    ({ Big.ofNat X with
      w := Function.update (Big.ofNat X).w 0 ((Big.ofNat X).w 0 % (Big.ofNat Y).w 0) } : Big).lzero =
        Big.ofNat (X % Y) := by
  have length : (Big.ofNat X).len = 1 := size
  have plus : (Big.ofNat X).minus = false := rfl
  rw [Big.lzero_eq, Big.value_eq_signed]
  · rw [← Big.ofInt_natCast (X % Y)]
    congr 1
    simp only [plus, Big.signed, Bool.false_eq_true, if_false, Big.magnitude, length,
      Big.below_succ, Big.below_zero, Function.update_self, UInt32.toNat_mod, xWord, yWord,
      pow_zero, mul_one, zero_add]
  · intro i above
    simp only [length] at above
    exact (Function.update_of_ne (Nat.ne_of_gt above) _ _).trans
      ((Big.ofNat_normal X).clean i (by omega))

/-- After the special cases, either the quotient is complete, or nothing has happened. -/
theorem smallQuotient_eq {mip : Mip} (clean : mip.Clean) {y : Slot} (apart : y ≠ .w 0) {X Y : Nat}
    (dividend : mip.bigs (.w 0) = Big.ofNat X) (divisor : mip.bigs y = Big.ofNat Y)
    (positive : 0 < Y) :
    mip.smallQuotient y (Big.wordCount X) (Big.wordCount Y) =
        (mip.set (.w 0) (Big.ofNat (X % Y)), UInt32.ofNat (X / Y)) ∧ X / Y < wordBase ∨
      mip.smallQuotient y (Big.wordCount X) (Big.wordCount Y) = (mip, 0) ∧
        (Big.wordCount X = Big.wordCount Y → Big.wordCount X ≠ 1) := by
  have some : Big.wordCount Y ≠ 0 := fun none => by
    have := Big.lt_pow_wordCount Y
    rw [none, pow_zero] at this
    omega
  rcases Nat.exists_eq_succ_of_ne_zero some with ⟨n, size⟩
  rw [Nat.succ_eq_add_one] at size
  have yHigh := Big.lt_pow_wordCount Y
  have xHigh := Big.lt_pow_wordCount X
  simp only [smallQuotient, dividend, divisor, size] at yHigh ⊢
  split
  · rename_i same
    rw [same] at xHigh ⊢
    have yLeading := toNat_leading yHigh
    have xLeading := toNat_leading xHigh
    have power : 0 < wordBase ^ n := Nat.pow_pos Big.wordBase_pos
    split
    · rename_i one
      left
      have n0 : n = 0 := by omega
      subst n0
      rw [zero_add, pow_one] at xHigh yHigh
      rw [pow_zero, Nat.div_one] at xLeading yLeading
      have small : X / Y < wordBase := (Nat.div_le_self X Y).trans_lt xHigh
      have quotient : (Big.ofNat X).w 0 / (Big.ofNat Y).w 0 = UInt32.ofNat (X / Y) := by
        apply UInt32.toNat_inj.mp
        rw [UInt32.toNat_div, xLeading, yLeading, UInt32.toNat_ofNat_of_lt' small]
      refine ⟨?_, small⟩
      rw [quotient, mrLzero, bigs_set_self, set_set, wordRemainder (by omega) xLeading yLeading]
    · rename_i more
      simp only [Nat.add_sub_cancel]
      split
      · rename_i close
        left
        have fits : X < 4 * Y := by
          have quarter : ((Big.ofNat X).w n / 4).toNat = ((Big.ofNat X).w n).toNat / 4 :=
            UInt32.toNat_div _ _
          rw [UInt32.lt_iff_toNat_lt, quarter, xLeading, yLeading] at close
          have above := Nat.lt_mul_div_succ X power
          calc X < wordBase ^ n * (X / wordBase ^ n + 1) := above
            _ ≤ wordBase ^ n * (4 * (Y / wordBase ^ n)) := Nat.mul_le_mul_left _ (by omega)
            _ = 4 * (wordBase ^ n * (Y / wordBase ^ n)) := by ring
            _ ≤ 4 * Y := Nat.mul_le_mul_left _ (Nat.mul_div_le Y _)
        have counted := subtractions_eq apart positive 4 0 clean dividend divisor fits
        rw [UInt32.zero_add] at counted
        refine ⟨counted, (Nat.div_lt_of_lt_mul (by rwa [Nat.mul_comm])).trans ?_⟩
        decide
      · exact Or.inr ⟨rfl, fun _ => more⟩
  · rename_i differ
    exact Or.inr ⟨rfl, fun same => absurd same differ⟩

/-! ## The results -/

def delivered (x y z : Slot) (quotient remainder divisor : Int) (mip : Mip) : Mip :=
  let mip := if y ≠ z then mip.set z (Big.ofInt quotient) else mip
  let mip := if x ≠ z then mip.set x (Big.ofInt remainder) else mip
  mip.set y (Big.ofInt divisor)

theorem delivered_first (x y z : Slot) (quotient remainder divisor : Int) (mip : Mip) :
    mip.delivered x y z quotient remainder divisor =
      (if y ≠ z then (if x ≠ z then mip.set x (Big.ofInt remainder) else mip).set z
          (Big.ofInt quotient)
        else if x ≠ z then mip.set x (Big.ofInt remainder) else mip).set y (Big.ofInt divisor) := by
  by_cases same : x = z
  · simp only [delivered, same, ne_eq, not_true_eq_false, if_false]
  · by_cases kept : y = z
    · simp only [delivered, kept, ne_eq, not_true_eq_false, if_false]
    · simp only [delivered, ne_eq, same, kept, not_false_eq_true, if_true, set_comm mip (Ne.symm same)]

theorem delivered_rest (x y z : Slot) (quotient remainder divisor : Int) (mip : Mip) :
    mip.delivered x y z quotient remainder divisor =
      { mip with bigs := (mip.delivered x y z quotient remainder divisor).bigs } := by
  simp only [delivered]
  split
  · split
    · rfl
    · rfl
  · split
    · rfl
    · rfl

theorem bigs_delivered (x y z slot : Slot) (quotient remainder divisor : Int) (mip : Mip) :
    (mip.delivered x y z quotient remainder divisor).bigs slot =
      if slot = y then Big.ofInt divisor
      else if slot = x ∧ x ≠ z then Big.ofInt remainder
      else if slot = z ∧ y ≠ z then Big.ofInt quotient
      else mip.bigs slot := by
  have outer : ∀ (p : Prop) [Decidable p] (z : Slot) (big : Big) (mip : Mip),
      (if p then mip.set z big else mip).bigs slot =
        if slot = z ∧ p then big else mip.bigs slot := by
    intro p _ z big mip
    by_cases holds : p
    · simp only [holds, if_true, and_true, bigs_set]
    · simp only [holds, if_false, and_false]
  rw [delivered, bigs_set, outer, outer]

variable {mip : Mip} {x y z : Slot} {R Y : Nat}

theorem divideLess_eq (clean : mip.Clean) (yApart : y ≠ x)
    (dividend : mip.bigs (.w 0) = Big.ofNat R) (divisor : mip.bigs y = Big.ofNat Y) (some : Y ≠ 0)
    (sx sy sz : Bool) (d : UInt32) :
    mip.divideLess x y z sx sy sz d = mip.delivered x y z (Big.signed sz d.toNat)
      (Big.signed sx R) (Big.signed sy Y) := by
  rw [delivered_first]
  simp only [divideLess, copy_eq (.w 0) x clean, dividend, signUnlessZero]
  have first : (if x ≠ z then mip.set x (Big.ofInt (Big.signed sx R)) else mip).Clean ∧
      (if x ≠ z then mip.set x (Big.ofInt (Big.signed sx R)) else mip).bigs y = Big.ofNat Y := by
    split
    · exact ⟨clean.set (Big.ofInt_normal _).clean, (bigs_set_of_ne _ _ yApart).trans divisor⟩
    · exact ⟨clean, divisor⟩
  generalize (if x ≠ z then mip.set x (Big.ofInt (Big.signed sx R)) else mip) = mip' at *
  rw [putWord_eq first.1]
  apply orSign_eq some
  split
  · rename_i apart
    exact (bigs_set_of_ne _ _ apart).trans first.2
  · exact first.2

theorem divideWord_eq (clean : mip.Clean) (yApart : y ≠ x) (yNotW0 : y ≠ .w 0)
    (dividend : mip.bigs (.w 0) = Big.ofNat R) (divisor : mip.bigs y = Big.ofNat Y) (some : Y ≠ 0)
    (size : Big.wordCount Y = 1) (enough : Y ≤ R) (sx sy sz : Bool) :
    mip.divideWord x y z sx sy sz = (mip.set (.w 0) (Big.ofNat (R / Y))).delivered x y z
      (Big.signed sz (R / Y : Nat)) (Big.signed sx (R % Y : Nat)) (Big.signed sy Y) := by
  have word : ((mip.bigs y).w 0).toNat = Y := by
    have high := Big.lt_pow_wordCount Y
    rw [size] at high
    rw [divisor, toNat_leading high, pow_zero, Nat.div_one]
  have positive' : 0 < ((mip.bigs y).w 0).toNat := by omega
  rcases mrSdiv_eq clean (.w 0) positive' (.w 0) with
    ⟨quotient, remainder⟩
  rw [word, value_ofNat dividend, ← Int.ofNat_tdiv, Big.ofInt_natCast] at quotient
  rw [word, dividend, Big.magnitude_ofNat] at remainder
  have positive : R / Y ≠ 0 := (Nat.div_pos enough (Nat.pos_of_ne_zero some)).ne'
  have clean' := @Clean.set _ clean (.w 0) _ (Big.ofNat_normal (R / Y)).clean
  have dividend' : (mip.set (.w 0) (Big.ofNat (R / Y))).bigs (.w 0) = Big.ofNat (R / Y) :=
    bigs_set_self _ _ _
  have divisor' : (mip.set (.w 0) (Big.ofNat (R / Y))).bigs y = Big.ofNat Y :=
    (bigs_set_of_ne _ _ yNotW0).trans divisor
  simp only [divideWord, quotient]
  generalize mip.set (.w 0) (Big.ofNat (R / Y)) = mip' at *
  rw [copy_eq (.w 0) z clean', dividend', orSign_eq positive (bigs_set_self _ _ _), set_set]
  have first : (if y ≠ z then mip'.set z (Big.ofInt (Big.signed sz (R / Y : Nat))) else mip').Clean ∧
      (if y ≠ z then mip'.set z (Big.ofInt (Big.signed sz (R / Y : Nat))) else mip').bigs y =
        Big.ofNat Y := by
    split
    · rename_i apart
      exact ⟨clean'.set (Big.ofInt_normal _).clean, (bigs_set_of_ne _ _ apart).trans divisor'⟩
    · exact ⟨clean', divisor'⟩
  simp only [delivered]
  generalize (if y ≠ z then mip'.set z (Big.ofInt (Big.signed sz (R / Y : Nat))) else mip') = mip'' at *
  rw [putWord_eq first.1, remainder]
  apply orSign_eq some
  split
  · exact (bigs_set_of_ne _ _ yApart).trans first.2
  · exact first.2

theorem scaledDivision {n : Nat} {d : UInt32} (stores : Bool) {zg : Nat → UInt32}
    (cleared : stores = true → ∀ i, zg i = 0) (length : n + 2 ≤ Big.wordCount R)
    (low : wordBase ^ (n + 1) ≤ Y) (positive : 0 < d.toNat)
    (fits : Y * d.toNat < wordBase ^ (n + 2))
    (normalised : wordBase ≤ 2 * ((Big.ofNat (Y * d.toNat)).w (n + 1)).toNat)
    {run : (Nat → UInt32) × (Nat → UInt32) × Nat}
    (ran : longDivision (Big.ofNat (Y * d.toNat)).w (n + 2) (Big.wordCount R) stores
      (Big.ofNat (R * d.toNat)).w zg = run) :
    (∀ i, n + 2 ≤ i → run.1 i = 0) ∧ Big.below run.1 (n + 2) = R % Y * d.toNat ∧
      (stores = true → (∀ i, run.2.2 + 1 - (n + 2) ≤ i → run.2.1 i = 0) ∧
        Big.below run.2.1 (run.2.2 + 1 - (n + 2)) = R / Y) := by
  rcases Nat.exists_eq_add_of_le (show n + 1 ≤ Big.wordCount R by omega) with ⟨rounds, top⟩
  rw [Nat.add_comm] at top
  have high := Big.lt_pow_wordCount R
  rw [top] at high ran
  have divisor : Big.below (Big.ofNat (Y * d.toNat)).w (n + 2) = Y * d.toNat := by
    rw [Big.below_ofNat, Nat.mod_eq_of_lt fits]
  have product : R * d.toNat < wordBase ^ (rounds + (n + 2)) :=
    calc R * d.toNat < wordBase ^ (rounds + (n + 1)) * wordBase :=
          Nat.mul_lt_mul'' high (Big.word_lt d)
      _ = wordBase ^ (rounds + (n + 2)) := (pow_succ _ _).symm
  have dividend : Big.below (Big.ofNat (R * d.toNat)).w (rounds + (n + 2)) = R * d.toNat := by
    rw [Big.below_ofNat, Nat.mod_eq_of_lt product]
  have quotient : Quotient (Big.ofNat (Y * d.toNat)).w n stores
      (Big.below (Big.ofNat (R * d.toNat)).w (rounds + (n + 2)))
      (longDivision (Big.ofNat (Y * d.toNat)).w (n + 2) (rounds + (n + 1)) stores
        (Big.ofNat (R * d.toNat)).w zg) := longDivision_quotient normalised (by
      intro i above
      apply (Big.ofNat_normal (R * d.toNat)).clean
      apply ((Big.ofNat_normal (R * d.toNat)).len_le _).trans above
      rwa [Big.magnitude_ofNat]) (by
      rw [divisor]
      have split := Big.below_append (Big.ofNat (R * d.toNat)).w rounds (n + 2)
      rw [dividend] at split
      have power : 0 < wordBase ^ rounds := Nat.pow_pos Big.wordBase_pos
      apply Nat.lt_of_mul_lt_mul_left (a := wordBase ^ rounds)
      calc wordBase ^ rounds * Big.below (fun i => (Big.ofNat (R * d.toNat)).w (rounds + i)) (n + 2)
          ≤ R * d.toNat := by omega
        _ < wordBase ^ (rounds + (n + 1)) * d.toNat := Nat.mul_lt_mul_of_pos_right high positive
        _ = wordBase ^ rounds * (wordBase ^ (n + 1) * d.toNat) := by rw [pow_add, mul_assoc]
        _ ≤ wordBase ^ rounds * (Y * d.toNat) :=
            Nat.mul_le_mul_left _ (Nat.mul_le_mul_right _ low)) cleared
  rw [dividend, ran] at quotient
  refine ⟨quotient.zeros, ?_, fun stores => ⟨quotient.clean stores, ?_⟩⟩
  · rw [quotient.remainder, divisor, Nat.mul_mod_mul_right]
  · rw [quotient.quotient stores, divisor, Nat.mul_div_mul_right _ _ positive]

structure Scaled (mip mip' : Mip) (y z : Slot) (R Y n : Nat) (d : UInt32) : Prop where
  rest : mip' = { mip with check := false, bigs := mip'.bigs }
  clean : mip'.Clean
  dividend : mip'.bigs (.w 0) = Big.ofNat (R * d.toNat)
  divisor : mip'.bigs y = Big.ofNat (Y * d.toNat)
  cleared : y ≠ z → ∀ i, (mip'.bigs z).w i = 0
  kept : ∀ slot, slot ≠ y → slot ≠ z → slot ≠ .w 0 → mip'.bigs slot = mip.bigs slot
  factor : 0 < d.toNat
  fits : Y * d.toNat < wordBase ^ (n + 2)
  normalised : wordBase ≤ 2 * ((Big.ofNat (Y * d.toNat)).w (n + 1)).toNat

theorem quotientCleared (clean : mip.Clean) (y z : Slot) :
    ∃ big : Big, (if y ≠ z then mip.zero z else mip) = mip.set z big ∧ big.Clean ∧
      (y ≠ z → ∀ i, big.w i = 0) ∧ (y = z → big = mip.bigs z) := by
  by_cases same : y = z
  · rw [if_neg (not_not.mpr same)]
    exact ⟨mip.bigs z, (set_bigs _ _).symm, clean z, fun apart => absurd same apart, fun _ => rfl⟩
  · rw [if_pos same]
    refine ⟨Big.ofInt 0, zero_eq z clean, (Big.ofInt_normal 0).clean, fun _ i => ?_,
      fun equal => absurd equal same⟩
    exact (Big.ofInt_normal 0).clean i (Nat.zero_le i)

theorem scaleOperands_scaled (clean : mip.Clean) (yNotW0 : y ≠ .w 0) (zNotW0 : z ≠ .w 0)
    (dividend : mip.bigs (.w 0) = Big.ofNat R) (divisor : mip.bigs y = Big.ofNat Y) {n : Nat}
    (size : Big.wordCount Y = n + 2) :
    Scaled mip (mip.scaleOperands y z).1 y z R Y n (mip.scaleOperands y z).2 := by
  rcases quotientCleared clean y z with ⟨big, start, bigClean, cleared, kept⟩
  have clean1 := @Clean.set _ clean z _ bigClean
  have divisor1 : (mip.set z big).bigs y = Big.ofNat Y := by
    by_cases same : y = z
    · rw [← same, bigs_set_self, kept same, ← same, divisor]
    · rw [bigs_set_of_ne _ _ same, divisor]
  rcases normalise_eq clean1 divisor1 size with ⟨d, normalised, positive, fits, large⟩
  have clean2 : (((mip.set z big).set y (Big.ofNat (Y * d.toNat))).setCheck false).Clean :=
    clean1.set (Big.ofNat_normal (Y * d.toNat)).clean
  have dividend2 : (((mip.set z big).set y (Big.ofNat (Y * d.toNat))).setCheck false).bigs (.w 0) =
      Big.ofNat R := by
    rw [bigs_setCheck, bigs_set_of_ne _ _ yNotW0.symm, bigs_set_of_ne _ _ zNotW0.symm, dividend]
  have scaled := scaled_eq clean2 dividend2 d fun check => absurd check (by simp)
  simp only [scaleOperands, start, normalised]
  rw [scaled]
  constructor
  · rfl
  · exact clean2.set (Big.ofNat_normal _).clean
  · exact bigs_set_self _ _ _
  · rw [bigs_set_of_ne _ _ yNotW0, bigs_setCheck, bigs_set_self]
  · intro apart i
    rw [bigs_set_of_ne _ _ zNotW0, bigs_setCheck, bigs_set_of_ne _ _ apart.symm, bigs_set_self]
    exact cleared apart i
  · intro slot notY notZ notW0
    rw [bigs_set_of_ne _ _ notW0, bigs_setCheck, bigs_set_of_ne _ _ notY, bigs_set_of_ne _ _ notZ]
  · exact positive
  · exact fits
  · exact large

structure Looped (mip mip' : Mip) (y z : Slot) (R Y : Nat) (sz : Bool) (d : UInt32) : Prop where
  rest : mip' = { mip with bigs := mip'.bigs }
  clean : mip'.Clean
  remainder : (mip'.bigs (.w 0)).lzero = Big.ofNat (R % Y * d.toNat)
  divisor : mip'.bigs y = mip.bigs y
  quotient : y ≠ z → mip'.bigs z = Big.ofInt (Big.signed sz (R / Y : Nat))
  kept : ∀ slot, slot ≠ z → slot ≠ .w 0 → mip'.bigs slot = mip.bigs slot

theorem divideLoop_looped {mip' : Mip} {n : Nat} {d : UInt32} (scaled : Scaled mip mip' y z R Y n d)
    (yNotW0 : y ≠ .w 0) (zNotW0 : z ≠ .w 0) (low : wordBase ^ (n + 1) ≤ Y)
    (length : n + 2 ≤ Big.wordCount R) (sz : Bool) :
    Looped mip' (mip'.divideLoop y z sz (Big.wordCount R) (n + 2)) y z R Y sz d := by
  rw [divideLoop, scaled.divisor, scaled.dividend]
  generalize ran : longDivision _ _ _ _ _ _ = run
  rcases scaledDivision (decide (y ≠ z)) (fun apart => scaled.cleared (of_decide_eq_true apart))
    length low scaled.factor scaled.fits scaled.normalised ran with ⟨zeros, remainder, stored⟩
  rcases run with ⟨w0g, zg, w00⟩
  simp only at zeros remainder stored ⊢
  have restClean : (⟨false, n + 2, w0g⟩ : Big).Clean := zeros
  have rest : (⟨false, n + 2, w0g⟩ : Big).lzero = Big.ofNat (R % Y * d.toNat) := by
    rw [Big.lzero_eq restClean, ← Big.ofInt_natCast, ← remainder]
    rfl
  have untouched : ∀ m : Mip, m.bigs y = mip'.bigs y → m.mrLzero y = m := by
    intro m kept
    apply mrLzero_eq_self
    rw [kept, scaled.divisor]
    exact Big.ofNat_normal _
  by_cases same : y = z
  · subst same
    have again := untouched (mip'.set (.w 0) ⟨false, n + 2, w0g⟩) (bigs_set_of_ne _ _ yNotW0)
    simp only [ne_eq, not_true_eq_false, if_false, again]
    constructor
    · rfl
    · exact scaled.clean.set restClean
    · rw [bigs_set_self, rest]
    · exact bigs_set_of_ne _ _ yNotW0
    · exact fun apart => absurd rfl apart
    · exact fun slot _ notW0 => bigs_set_of_ne _ _ notW0
  · rcases stored (decide_eq_true same) with ⟨zClean, quotient⟩
    have quotientClean : (⟨sz, w00 + 1 - (n + 2), zg⟩ : Big).Clean := zClean
    have again := untouched
      ((mip'.set z ⟨sz, w00 + 1 - (n + 2), zg⟩).set (.w 0) ⟨false, n + 2, w0g⟩)
      (by rw [bigs_set_of_ne _ _ yNotW0, bigs_set_of_ne _ _ same])
    simp only [ne_eq, same, not_false_eq_true, if_true, again]
    rw [mrLzero, bigs_set_of_ne _ _ zNotW0, bigs_set_self, Big.lzero_eq quotientClean]
    constructor
    · rfl
    · exact ((scaled.clean.set quotientClean).set restClean).set (Big.ofInt_normal _).clean
    · rw [bigs_set_of_ne _ _ zNotW0.symm, bigs_set_self, rest]
    · rw [bigs_set_of_ne _ _ same, bigs_set_of_ne _ _ yNotW0, bigs_set_of_ne _ _ same]
    · intro _
      rw [bigs_set_self, ← quotient]
      rfl
    · intro slot notZ notW0
      rw [bigs_set_of_ne _ _ notZ, bigs_set_of_ne _ _ notW0, bigs_set_of_ne _ _ notZ]

theorem divideLong_eq (clean : mip.Clean) (yApart : y ≠ x) (yNotW0 : y ≠ .w 0) (zNotW0 : z ≠ .w 0)
    (dividend : mip.bigs (.w 0) = Big.ofNat R) (divisor : mip.bigs y = Big.ofNat Y) {n : Nat}
    (size : Big.wordCount Y = n + 2) (length : n + 2 ≤ Big.wordCount R) (sx sy sz : Bool) :
    ∃ w0 : Big, w0.Clean ∧
      mip.divideLong x y z sx sy sz (Big.wordCount R) (Big.wordCount Y) =
        (mip.set (.w 0) w0).delivered x y z
          (Big.signed sz (R / Y : Nat)) (Big.signed sx (R % Y : Nat)) (Big.signed sy Y) := by
  have low := Big.pow_le_of_wordCount size
  have some : Y ≠ 0 := by
    have : 0 < wordBase ^ (n + 1) := Nat.pow_pos Big.wordBase_pos
    omega
  have scaled := scaleOperands_scaled clean yNotW0 zNotW0 dividend divisor size
  simp only [divideLong, size]
  generalize mip.scaleOperands y z = operands at scaled ⊢
  rcases operands with ⟨mip1, d⟩
  have looped := divideLoop_looped scaled yNotW0 zNotW0 low length sz
  simp only
  generalize mip1.divideLoop y z sz (Big.wordCount R) (n + 2) = mip2 at looped ⊢
  have divisor2 : mip2.bigs y = Big.ofNat (Y * d.toNat) := looped.divisor.trans scaled.divisor
  have rest2 : mip2 = { mip with check := false, bigs := mip2.bigs } := by
    rw [looped.rest, scaled.rest]
  have kept2 : ∀ slot, slot ≠ y → slot ≠ z → slot ≠ .w 0 → mip2.bigs slot = mip.bigs slot :=
    fun slot notY notZ notW0 =>
      (looped.kept slot notZ notW0).trans (scaled.kept slot notY notZ notW0)
  have last : ∀ m : Mip, m.Clean → m.bigs y = Big.ofNat (Y * d.toNat) →
      (if d ≠ 1 then (m.mrSdiv y d y).1 else m).orSign y sy =
        m.set y (Big.ofInt (Big.signed sy Y)) := by
    intro m mClean number
    have unscaled := unscaled_eq mClean scaled.factor number y
    rw [show m.copy y y = m from if_pos rfl] at unscaled
    rw [unscaled, orSign_eq some (bigs_set_self _ _ _), set_set]
  by_cases same : x = z
  · subst same
    refine ⟨mip2.bigs (.w 0), looped.clean (.w 0), ?_⟩
    rw [if_neg (not_not.mpr (Eq.refl x)), last mip2 looped.clean divisor2]
    apply eq_of_bigs
    · rw [delivered_rest, rest2]
      rfl
    · intro slot
      rw [bigs_delivered, bigs_setCheck, bigs_set, bigs_set]
      by_cases atY : slot = y
      · rw [if_pos atY, if_pos atY]
      · rw [if_neg atY, if_neg atY, if_neg (fun both => both.2 rfl)]
        by_cases atZ : slot = x
        · rw [if_pos ⟨atZ, yApart⟩, atZ, looped.quotient yApart]
        · rw [if_neg (fun both => atZ both.1)]
          by_cases atW0 : slot = .w 0
          · rw [if_pos atW0, atW0]
          · rw [if_neg atW0, kept2 slot atY atZ atW0]
  · refine ⟨Big.ofNat (R % Y * d.toNat), (Big.ofNat_normal _).clean, ?_⟩
    have clean3 := @Clean.set _ looped.clean (.w 0) _ (Big.ofNat_normal (R % Y * d.toNat)).clean
    have unscaled := unscaled_eq clean3 scaled.factor (bigs_set_self mip2 (.w 0) _) x
    rw [if_pos same, mrLzero, looped.remainder, unscaled, signUnlessZero,
      last _ (clean3.set (Big.ofInt_normal _).clean)
        (by rw [bigs_set_of_ne _ _ yApart, bigs_set_of_ne _ _ yNotW0, divisor2])]
    apply eq_of_bigs
    · rw [delivered_rest, rest2]
      rfl
    · intro slot
      rw [bigs_delivered, bigs_setCheck, bigs_set, bigs_set, bigs_set, bigs_set]
      by_cases atY : slot = y
      · rw [if_pos atY, if_pos atY]
      · rw [if_neg atY, if_neg atY]
        by_cases atX : slot = x
        · rw [if_pos atX, if_pos ⟨atX, same⟩]
        · rw [if_neg atX, if_neg (show ¬(slot = x ∧ x ≠ z) from fun both => atX both.1)]
          by_cases atZ : slot = z
          · rw [if_neg (atZ ▸ zNotW0), atZ, if_pos ⟨rfl, fun equal => atY (atZ.trans equal.symm)⟩,
              looped.quotient fun equal => atY (atZ.trans equal.symm)]
          · rw [if_neg (show ¬(slot = z ∧ y ≠ z) from fun both => atZ both.1)]
            by_cases atW0 : slot = .w 0
            · rw [if_pos atW0, if_pos atW0]
            · rw [if_neg atW0, if_neg atW0, kept2 slot atY atZ atW0]

theorem divideMagnitudes_eq (clean : mip.Clean) (yApart : y ≠ x) (yNotW0 : y ≠ .w 0)
    (zNotW0 : z ≠ .w 0) {X : Nat} (dividend : mip.bigs x = Big.ofNat X)
    (divisor : mip.bigs y = Big.ofNat Y) (some : Y ≠ 0)
    (room : mip.check = true → Big.wordCount X + 1 ≤ mip.nib + Big.wordCount Y)
    (sx sy sz : Bool) :
    ∃ w0 : Big, w0.Clean ∧ mip.divideMagnitudes x y z sx sy sz =
      (mip.set (.w 0) w0).delivered x y z
        (Big.signed sz (X / Y : Nat)) (Big.signed sx (X % Y : Nat)) (Big.signed sy Y) := by
  have positive := Nat.pos_of_ne_zero some
  have clean' := @Clean.set _ clean (.w 0) _ (Big.ofNat_normal X).clean
  have dividend' : (mip.set (.w 0) (Big.ofNat X)).bigs (.w 0) = Big.ofNat X := bigs_set_self _ _ _
  have divisor' : (mip.set (.w 0) (Big.ofNat X)).bigs y = Big.ofNat Y :=
    (bigs_set_of_ne _ _ yNotW0).trans divisor
  have fits : ¬(mip.check = true ∧ Big.wordCount X + 1 > mip.nib + Big.wordCount Y) :=
    fun ⟨check, tooLong⟩ => absurd (room check) (Nat.not_le.mpr tooLong)
  simp only [divideMagnitudes, copy_eq x (.w 0) clean, dividend, divisor, bigs_set_self, set_check,
    set_nib, show (Big.ofNat X).len = Big.wordCount X from rfl,
    show (Big.ofNat Y).len = Big.wordCount Y from rfl, if_neg fits]
  have overwritten : ∀ big, (mip.set (.w 0) (Big.ofNat X)).set (.w 0) big = mip.set (.w 0) big :=
    fun big => set_set _ _ _ _
  have small := smallQuotient_eq clean' yNotW0 dividend' divisor' positive
  generalize mip.set (.w 0) (Big.ofNat X) = mip' at *
  rcases small with ⟨counted, bound⟩ | ⟨untouched, notWords⟩
  · rw [counted]
    have dividend'' : (mip'.set (.w 0) (Big.ofNat (X % Y))).bigs (.w 0) = Big.ofNat (X % Y) :=
      bigs_set_self _ _ _
    have divisor'' : (mip'.set (.w 0) (Big.ofNat (X % Y))).bigs y = Big.ofNat Y :=
      (bigs_set_of_ne _ _ yNotW0).trans divisor'
    have less := Nat.mod_lt X positive
    refine ⟨Big.ofNat (X % Y), (Big.ofNat_normal _).clean, ?_⟩
    simp only [compare_ofNat dividend'' divisor'']
    rw [if_pos (Int.sign_neg_iff.mpr (by omega)),
      divideLess_eq (clean'.set (Big.ofNat_normal _).clean) yApart dividend'' divisor'' some,
      UInt32.toNat_ofNat_of_lt' bound, overwritten]
  · simp only [untouched, compare_ofNat dividend' divisor']
    rcases Nat.lt_or_ge X Y with less | enough
    · refine ⟨Big.ofNat X, (Big.ofNat_normal _).clean, ?_⟩
      rw [if_pos (Int.sign_neg_iff.mpr (by omega)),
        divideLess_eq clean' yApart dividend' divisor' some, UInt32.toNat_zero,
        Nat.div_eq_of_lt less, Nat.mod_eq_of_lt less, ← overwritten, ← dividend', set_bigs]
    · rw [if_neg (fun negative => by have := Int.sign_neg_iff.mp negative; omega)]
      split
      · rename_i one
        refine ⟨Big.ofNat (X / Y), (Big.ofNat_normal _).clean, ?_⟩
        rw [divideWord_eq clean' yApart yNotW0 dividend' divisor' some one enough, overwritten]
      · rename_i more
        have longer : Big.wordCount Y ≤ Big.wordCount X := by
          apply (Big.ofNat_normal Y).len_le
          rw [Big.magnitude_ofNat]
          exact enough.trans_lt (Big.lt_pow_wordCount X)
        have notEmpty : Big.wordCount Y ≠ 0 := fun none =>
          some (by rw [← Big.magnitude_ofNat Y]; exact Big.magnitude_of_empty none)
        rcases Nat.exists_eq_add_of_le (show 2 ≤ Big.wordCount Y by omega) with ⟨n, size⟩
        rw [Nat.add_comm] at size
        rcases divideLong_eq clean' yApart yNotW0 zNotW0 dividend' divisor' size (size ▸ longer) sx sy
          sz with ⟨w0, w0Clean, result⟩
        exact ⟨w0, w0Clean, by rw [result, overwritten]⟩

/-! ## The theorem -/

/-- What `divide` leaves: the quotient and the remainder, rounded towards zero, and the
divisor as it was. -/
structure Divided (mip mip' : Mip) (x y z : Slot) : Prop where
  rest : mip' = { mip with bigs := mip'.bigs }
  clean : mip'.Clean
  quotient : z ≠ y → mip'.bigs z = Big.ofInt ((mip.value x).tdiv (mip.value y))
  remainder : z ≠ x → mip'.bigs x = Big.ofInt ((mip.value x).tmod (mip.value y))
  divisor : mip'.bigs y = mip.bigs y
  kept : ∀ slot, slot ≠ x → slot ≠ z → slot ≠ .w 0 → mip'.bigs slot = mip.bigs slot

theorem signed_tdiv_signed (sx sy : Bool) (X Y : Nat) :
    (Big.signed sx X).tdiv (Big.signed sy Y) = Big.signed (sx != sy) (X / Y) := by
  cases sy with
  | false =>
      rw [Bool.bne_false]
      exact signed_tdiv sx X Y
  | true =>
      rw [show Big.signed true Y = -(Y : Int) from rfl, Int.tdiv_neg, signed_tdiv]
      cases sx <;> simp [Big.signed]

theorem signed_tmod_signed (sx sy : Bool) (X Y : Nat) :
    (Big.signed sx X).tmod (Big.signed sy Y) = Big.signed sx (X % Y) := by
  cases sy with
  | false => exact signed_tmod sx X Y
  | true => rw [show Big.signed true Y = -(Y : Int) from rfl, Int.tmod_neg, signed_tmod]

theorem divided_of_delivered {m : Mip} (rest : m = { mip with bigs := m.bigs }) (clean : m.Clean)
    (kept : ∀ slot, slot ≠ x → slot ≠ y → slot ≠ .w 0 → m.bigs slot = mip.bigs slot)
    (yNormal : (mip.bigs y).Normal) (apart : x ≠ y) :
    Divided mip (m.delivered x y z ((mip.value x).tdiv (mip.value y))
      ((mip.value x).tmod (mip.value y)) (mip.value y)) x y z where
  rest := by
    rw [delivered_rest, rest]
  clean := by
    intro slot
    rw [bigs_delivered]
    split
    · exact (Big.ofInt_normal _).clean
    · split
      · exact (Big.ofInt_normal _).clean
      · split
        · exact (Big.ofInt_normal _).clean
        · exact clean slot
  quotient := by
    intro zNotY
    rw [bigs_delivered, if_neg zNotY, if_neg (fun both => both.2 both.1.symm),
      if_pos ⟨rfl, zNotY.symm⟩]
  remainder := by
    intro zNotX
    rw [bigs_delivered, if_neg apart, if_pos ⟨rfl, zNotX.symm⟩]
  divisor := by
    rw [bigs_delivered, if_pos rfl]
    exact yNormal.eq_ofInt.symm
  kept := by
    intro slot notX notZ notW0
    rw [bigs_delivered, if_neg (show ¬(slot = x ∧ x ≠ z) from fun both => notX both.1),
      if_neg (show ¬(slot = z ∧ y ≠ z) from fun both => notZ both.1)]
    split
    · rename_i atY
      rw [atY]
      exact yNormal.eq_ofInt.symm
    · rename_i notY
      exact kept slot notX notY notW0

theorem divide_divided (clean : mip.Clean) (ready : mip.ernum = none)
    (xNormal : (mip.bigs x).Normal) (yNormal : (mip.bigs y).Normal) (apart : x ≠ y)
    (nonzero : (mip.bigs y).len ≠ 0) (yNotW0 : y ≠ .w 0) (zNotW0 : z ≠ .w 0)
    (room : mip.check = true → (mip.bigs x).len + 1 ≤ mip.nib + (mip.bigs y).len) :
    Divided mip (mip.divide x y z) x y z := by
  have absolutes : (mip.absolute x).absolute y = (mip.set x (Big.ofNat (mip.bigs x).magnitude)).set
      y (Big.ofNat (mip.bigs y).magnitude) := by
    have kept : (mip.set x (Big.ofNat (mip.bigs x).magnitude)).bigs y = mip.bigs y :=
      bigs_set_of_ne _ _ apart.symm
    rw [absolute_eq xNormal, absolute_eq (by rwa [kept]), kept]
  have yPositive : (mip.bigs y).magnitude ≠ 0 := fun zero =>
    nonzero (yNormal.magnitude_eq_zero.mp zero)
  have clean' : ((mip.set x (Big.ofNat (mip.bigs x).magnitude)).set y
      (Big.ofNat (mip.bigs y).magnitude)).Clean :=
    (clean.set (Big.ofNat_normal _).clean).set (Big.ofNat_normal _).clean
  rcases divideMagnitudes_eq clean' apart.symm yNotW0 zNotW0
    ((bigs_set_of_ne _ _ apart).trans (bigs_set_self _ _ _)) (bigs_set_self _ _ _) yPositive
    (by rw [← xNormal.len_eq, ← yNormal.len_eq]; exact room) (mip.bigs x).minus (mip.bigs y).minus
    ((mip.bigs x).minus != (mip.bigs y).minus) with ⟨w0, w0Clean, result⟩
  rw [divide, if_neg (by simp [ready])]
  simp only [divideArguments, if_neg apart, if_neg nonzero, ready, Option.isSome_none,
    Bool.false_eq_true, if_false, absolutes, result]
  rw [← signed_tdiv_signed, ← signed_tmod_signed]
  apply divided_of_delivered ?_ (clean'.set w0Clean) ?_ yNormal apart
  · rfl
  · intro slot notX notY notW0
    rw [bigs_set_of_ne _ _ notW0, bigs_set_of_ne _ _ notY, bigs_set_of_ne _ _ notX]

theorem divide_refused (ready : mip.ernum = none) {error : MiraclError}
    (refused : (mip.divideArguments x y).ernum = some error) (z : Slot) :
    (mip.divide x y z).ernum = some error := by
  rw [divide, if_neg (by simp [ready])]
  simp only
  rw [if_pos (by simp [refused]), refused]

theorem divideMagnitudes_overflow (clean : mip.Clean) (check : mip.check = true)
    (tooLong : mip.nib + (mip.bigs y).len < (mip.bigs x).len + 1) (sx sy sz : Bool) :
    (mip.divideMagnitudes x y z sx sy sz).ernum = some .overflow := by
  simp only [divideMagnitudes, copy_eq x (.w 0) clean, bigs_set_self, set_check, set_nib]
  rw [if_pos ⟨check, tooLong⟩]
  rfl

/-- Division delivers what it should for every combination of signs, of lengths and of equal
arguments, or the error number says why not. -/
theorem divide_exact (clean : mip.Clean) (ready : mip.ernum = none)
    (xNormal : (mip.bigs x).Normal) (yNormal : (mip.bigs y).Normal) (yNotW0 : y ≠ .w 0)
    (zNotW0 : z ≠ .w 0) :
    if mip.value y = 0 then (mip.divide x y z).ernum = some .divByZero
    else if x = y then (mip.divide x y z).ernum = some .badParameters
    else if mip.check = true ∧ mip.nib + (mip.bigs y).len < (mip.bigs x).len + 1 then
      (mip.divide x y z).ernum = some .overflow
    else Divided mip (mip.divide x y z) x y z := by
  have empty : mip.value y = 0 ↔ (mip.bigs y).len = 0 := by
    rw [← yNormal.magnitude_eq_zero, ← Big.natAbs_value, Int.natAbs_eq_zero]
    rfl
  rw [ite_cond_congr (propext empty)]
  split
  · rename_i zero
    apply divide_refused ready
    have stillZero : ((if x = y then mip.berror .badParameters else mip).bigs y).len = 0 := by
      split
      · exact zero
      · exact zero
    rw [divideArguments, if_pos stillZero]
    rfl
  · rename_i some
    split
    · rename_i same
      apply divide_refused ready
      rw [divideArguments, if_pos same]
      exact congrArg Mip.ernum (if_neg some)
    · rename_i apart
      split
      · rename_i tooLong
        have lengths : ∀ slot, (((mip.absolute x).absolute y).bigs slot).len =
            (mip.bigs slot).len := by
          intro slot
          rw [bigs_absolute_absolute]
          split
          · rfl
          · rfl
        rw [divide, if_neg (by simp [ready])]
        simp only [divideArguments, if_neg apart, if_neg some, ready, Option.isSome_none,
          Bool.false_eq_true, if_false]
        apply divideMagnitudes_overflow (absolute_clean (absolute_clean clean x) y) tooLong.1
        rw [lengths, lengths]
        exact tooLong.2
      · rename_i fits
        exact divide_divided clean ready xNormal yNormal apart some yNotW0 zNotW0
          fun check => Nat.not_lt.mp fun tooLong => fits ⟨check, tooLong⟩

theorem divide_exact_long :
    let mip := ((mirsys 17).set (.caller 0) (Big.ofInt (-(2 ^ 190 + 5)))).set (.caller 1)
      (Big.ofInt (2 ^ 70))
    Divided mip (mip.divide (.caller 0) (.caller 1) (.caller 0)) (.caller 0) (.caller 1)
      (.caller 0) := by
  intro mip
  have first : mip.bigs (.caller 0) = Big.ofInt (-(2 ^ 190 + 5)) := rfl
  have second : mip.bigs (.caller 1) = Big.ofInt (2 ^ 70) := rfl
  have clean : mip.Clean := ((mirsys_clean 17).set (Big.ofInt_normal (-(2 ^ 190 + 5))).clean).set
    (Big.ofInt_normal (2 ^ 70)).clean
  have value : mip.value (.caller 1) = 2 ^ 70 := Big.ofInt_value _
  have length : (mip.bigs (.caller 0)).len ≤ 16 := by
    rw [first]
    exact (Big.ofInt_normal _).len_le (by rw [Big.ofInt_magnitude]; decide)
  have exact' := divide_exact clean rfl (x := .caller 0) (y := .caller 1) (z := .caller 0)
    (first ▸ Big.ofInt_normal _) (second ▸ Big.ofInt_normal _) (by decide) (by decide)
  rw [value, if_neg (by decide), if_neg (by decide), if_neg] at exact'
  · exact exact'
  · rintro ⟨-, tooLong⟩
    have : mip.nib = 17 := rfl
    omega

end Mip

end Penglai.Miracl
