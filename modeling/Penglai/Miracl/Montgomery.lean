import Penglai.Foundation.Montgomery
import Penglai.Miracl.Division
import Penglai.Miracl.Multiplication

namespace Penglai.Miracl

/-! # Montgomery arithmetic

`mrmonty.c`: numbers modulo an odd number are kept as n-residues, multiplied by the power
of the number base that is as long as the modulus. -/

/-! ## Shifts by whole words -/

def shiftWords (gw : Nat → UInt32) (bl : Nat) (n : Int) : Nat → UInt32 :=
  if n > 0 then
    let n := n.toNat
    let (gw, _) := forRange 0 (bl - n)
      (sweepStep (bl - 1 - ·) fun gw k _ => (gw (bl - 1 - k - n), ())) (gw, ())
    forRange 0 n (fun i gw => Function.update gw i 0) gw
  else
    let n := n.natAbs
    let (gw, _) := forRange 0 bl (sweepStep id fun gw i _ => (gw (i + n), ())) (gw, ())
    forRange 0 n (fun i gw => Function.update gw (bl + i) 0) gw

theorem forRange_clear (start count : Nat) (gw : Nat → UInt32) (i : Nat) :
    forRange 0 count (fun k gw => Function.update gw (start + k) 0) gw i =
      if start ≤ i ∧ i < start + count then 0 else gw i := by
  induction count with
  | zero => rw [forRange_zero, if_neg (by omega)]
  | succ count induction =>
      rw [forRange_succ, Nat.zero_add, Function.update_apply, induction]
      split_ifs <;> first | rfl | omega

theorem shiftWords_up {gw : Nat → UInt32} {len n : Nat} (clean : ∀ i, len ≤ i → gw i = 0)
    (positive : 0 < n) :
    shiftWords gw (len + n) n = fun i => if i < n then 0 else gw (i - n) := by
  have swept : Swept (len + n - 1 - ·) (fun k (_ : Unit) => (gw (len + n - 1 - k - n), ())) gw ()
      len (forRange 0 len
        (sweepStep (len + n - 1 - ·) fun gw k _ => (gw (len + n - 1 - k - n), ())) (gw, ())) := by
    apply swept_forRange
    · intro k inside cells unwritten
      have here := unwritten (len + n - 1 - k - n) fun earlier before =>
        (by omega : len + n - 1 - earlier ≠ len + n - 1 - k - n)
      funext carry
      simp only [here]
    · exact fun k inside earlier before =>
        (by omega : len + n - 1 - earlier ≠ len + n - 1 - k)
  funext i
  have zeros := fun gw => forRange_clear 0 n gw i
  simp only [Nat.zero_add, Nat.zero_le, true_and] at zeros
  simp only [shiftWords, gt_iff_lt, Int.natCast_pos, positive, if_true, Int.toNat_natCast,
    Nat.add_sub_cancel, zeros]
  split
  · rfl
  · rename_i above
    by_cases inside : i < len + n
    · have written := swept.written (len + n - 1 - i) (by omega)
      have place : len + n - 1 - (len + n - 1 - i) = i := by omega
      simp only [place, digitOf] at written
      exact written
    · have kept := swept.untouched i fun earlier before => by omega
      rw [clean (i - n) (by omega)]
      exact kept.trans (clean i (by omega))

theorem shiftWords_down {gw : Nat → UInt32} {bl n : Nat} (clean : ∀ i, bl + n ≤ i → gw i = 0) :
    shiftWords gw bl (-n) = fun i => gw (i + n) := by
  have swept : Swept id (fun i (_ : Unit) => (gw (i + n), ())) gw () bl
      (forRange 0 bl (sweepStep id fun gw i _ => (gw (i + n), ())) (gw, ())) := by
    apply swept_forRange
    · intro k inside cells unwritten
      have here := unwritten (k + n) fun earlier before => (by omega : earlier ≠ k + n)
      funext carry
      simp only [here]
    · exact fun k inside earlier before => Nat.ne_of_lt before
  have downwards : ¬(-(n : Int) > 0) := by omega
  funext i
  simp only [shiftWords, downwards, if_false, Int.natAbs_neg, Int.natAbs_natCast, forRange_clear]
  split
  · rw [clean (i + n) (by omega)]
  · by_cases inside : i < bl
    · exact swept.written i inside
    · have kept := swept.untouched i fun earlier before => (by omega : earlier ≠ i)
      rw [clean (i + n) (by omega)]
      exact kept.trans (clean i (by omega))

/-! ## Reduction -/

/-- A round of `redc`. After this time around the loop, word `i` is zero. -/
def redcRound (modulus : Nat → UInt32) (rn : Nat) (ndash : UInt32) (i : Nat)
    (state : (Nat → UInt32) × UInt32) : (Nat → UInt32) × UInt32 :=
  let (w0g, delayCarry) := state
  let m := ndash * w0g i
  let (w0g, carry) := mulRow m modulus i rn w0g
  let word := w0g (rn + i) + delayCarry
  let delayCarry := if word < delayCarry then 1 else 0
  let word := word + carry
  let delayCarry := if word < carry then 1 else delayCarry
  (Function.update w0g (rn + i) word, delayCarry)

theorem delayCarry_balance (word carry : UInt32) {delay : UInt32} (bit : delay.toNat ≤ 1) :
    (word + delay + carry).toNat +
        wordBase * (if word + delay + carry < carry then (1 : UInt32) else
          if word + delay < delay then 1 else 0).toNat =
      word.toNat + delay.toNat + carry.toNat ∧
    (if word + delay + carry < carry then (1 : UInt32) else
      if word + delay < delay then 1 else 0).toNat ≤ 1 := by
  have first := addWord_balance word delay
  have second := addWord_balance (word + delay) carry
  have wordBound := Big.word_lt word
  have carryBound := Big.word_lt carry
  have sumBound := Big.word_lt (word + delay)
  split at second
  · rename_i carried
    rw [if_pos carried]
    split at first
    · simp only [UInt32.toNat_one] at *
      omega
    · simp only [UInt32.toNat_one, UInt32.toNat_zero] at *
      omega
  · rename_i stopped
    rw [if_neg stopped]
    split at first
    · rename_i delayed
      rw [if_pos delayed]
      simp only [UInt32.toNat_one, UInt32.toNat_zero] at *
      omega
    · rename_i kept
      rw [if_neg kept]
      simp only [UInt32.toNat_zero] at *
      omega

/-- What the first `i` rounds leave: a multiple of the modulus has been added, and the low
words have vanished. -/
structure RedcRounds (modulus x : Nat → UInt32) (rn i : Nat) (state : (Nat → UInt32) × UInt32) :
    Prop where
  cleared : ∀ j < i, state.1 j = 0
  behind : ∀ j, rn + i ≤ j → state.1 j = x j
  bit : state.2.toNat ≤ 1
  total : ∃ quotient < wordBase ^ i,
    Big.below state.1 (rn + i) + wordBase ^ (rn + i) * state.2.toNat =
      Big.below x (rn + i) + quotient * Big.below modulus rn

theorem Big.below_mod (w : Nat → UInt32) (count : Nat) :
    below w (count + 1) % wordBase = (w 0).toNat := by
  have low : below w 1 = (w 0).toNat := by
    rw [below_succ, below_zero, pow_zero, mul_one, zero_add]
  rw [Nat.add_comm, below_append, low, pow_one, Nat.add_mul_mod_self_left,
    Nat.mod_eq_of_lt (word_lt _)]

theorem RowAdded.lowest {m : UInt32} {y wg : Nat → UInt32} {offset count : Nat}
    {row : (Nat → UInt32) × UInt32} (added : RowAdded m y offset count wg row)
    (some : 0 < count) :
    (row.1 offset).toNat = ((wg offset).toNat + m.toNat * Big.below y count) % wordBase := by
  rcases Nat.exists_eq_succ_of_ne_zero (Nat.ne_of_gt some) with ⟨k, length⟩
  have total := congrArg (· % wordBase) added.total
  simp only [length, Nat.succ_eq_add_one, pow_succ, Nat.mul_assoc, Nat.mul_comm _ wordBase,
    Nat.add_mul_mod_self_left, Big.below_mod] at total
  rw [Nat.add_zero] at total
  rw [total, length, Nat.add_mod, Big.below_mod, Nat.add_zero, Nat.add_mod_mod]

theorem redcRounds_step {modulus x : Nat → UInt32} {rn i : Nat} {ndash : UInt32}
    (some : 0 < rn) (inverse : wordBase ∣ ndash.toNat * Big.below modulus rn + 1)
    {state : (Nat → UInt32) × UInt32} (before : RedcRounds modulus x rn i state) :
    RedcRounds modulus x rn (i + 1) (redcRound modulus rn ndash i state) := by
  rcases state with ⟨w0g, delay⟩
  rcases before with ⟨cleared, behind, bit, quotient, bound, total⟩
  simp only at cleared behind bit total
  have added := rowAdded (ndash * w0g i) modulus i rn w0g
  have factor : (ndash * w0g i).toNat = ndash.toNat * (w0g i).toNat % wordBase :=
    UInt32.toNat_mul _ _
  have lowest := added.lowest some
  rw [factor, Nat.mod_eq_zero_of_dvd (digit_vanishes inverse (w0g i).toNat)] at lowest
  simp only [redcRound]
  generalize ndash * w0g i = m at added lowest ⊢
  generalize mulRow m modulus i rn w0g = row at added lowest ⊢
  rcases row with ⟨row, carry⟩
  have above : row (rn + i) = x (rn + i) :=
    (added.behind (rn + i) (by omega)).trans (behind (rn + i) (Nat.le_refl _))
  have carried := delayCarry_balance (x (rn + i)) carry bit
  simp only [above]
  generalize x (rn + i) + delay + carry = word at carried ⊢
  generalize (if word < carry then (1 : UInt32) else if x (rn + i) + delay < delay then 1 else 0) =
    delay' at carried ⊢
  constructor
  · intro j inside
    apply (Function.update_of_ne (by omega : j ≠ rn + i) _ _).trans
    rcases Nat.lt_succ_iff_lt_or_eq.mp inside with earlier | rfl
    · exact (added.front j earlier).trans (cleared j earlier)
    · exact UInt32.toNat_inj.mp lowest
  · intro j beyond
    apply (Function.update_of_ne (by omega : j ≠ rn + i) _ _).trans
    exact (added.behind j (by omega)).trans (behind j (by omega))
  · exact carried.2
  · refine ⟨quotient + wordBase ^ i * m.toNat, ?_, ?_⟩
    · have digit := Nat.mul_le_mul_left (wordBase ^ i) (Nat.le_sub_one_of_lt (Big.word_lt m))
      rw [Nat.mul_sub_one] at digit
      have enough := Nat.le_mul_of_pos_right (wordBase ^ i) Big.wordBase_pos
      rw [pow_succ]
      omega
    · have front : Big.below row i = Big.below w0g i := Big.below_congr added.front
      have scaled := congrArg (wordBase ^ i * ·) added.total
      have top := congrArg (wordBase ^ (rn + i) * ·) carried.1
      have lower := Big.below_append row i rn
      have lower' := Big.below_append w0g i rn
      rw [Nat.add_comm i rn] at lower lower'
      simp only [← Nat.add_assoc]
      rw [Big.below_succ, Function.update_self, Big.below_update_above (Nat.le_refl _),
        Big.below_succ, lower, front]
      rw [lower'] at total
      simp only [mul_add, pow_add, pow_succ, add_mul] at scaled top total ⊢
      linarith

theorem redcRounds {modulus x : Nat → UInt32} {rn : Nat} {ndash : UInt32} (some : 0 < rn)
    (inverse : wordBase ∣ ndash.toNat * Big.below modulus rn + 1) :
    RedcRounds modulus x rn rn (forRange 0 rn (redcRound modulus rn ndash) (x, 0)) := by
  apply forRange_invariant (RedcRounds modulus x rn)
  · refine ⟨fun j inside => absurd inside (Nat.not_lt_zero j), fun _ _ => rfl, ?_, 0, ?_, ?_⟩
    · exact Nat.zero_le 1
    · rw [pow_zero]
      exact Nat.one_pos
    · rw [zero_mul, UInt32.toNat_zero, mul_zero]
  · intro i _ state before
    rw [Nat.zero_add]
    exact redcRounds_step some inverse before

theorem redcRounds_quotient {modulus x : Nat → UInt32} {rn : Nat} {state : (Nat → UInt32) × UInt32}
    (rounds : RedcRounds modulus x rn rn state) :
    ∃ quotient < wordBase ^ rn,
      wordBase ^ rn *
          Big.below (fun i => Function.update state.1 (rn + rn) state.2 (i + rn)) (rn + 1) =
        Big.below x (rn + rn) + quotient * Big.below modulus rn := by
  rcases rounds.total with ⟨quotient, bound, total⟩
  refine ⟨quotient, bound, ?_⟩
  have low : Big.below (Function.update state.1 (rn + rn) state.2) rn = 0 :=
    numeral_eq_zero fun j inside => by
      rw [Function.update_of_ne (by omega), rounds.cleared j inside, UInt32.toNat_zero]
  have split := Big.below_append (Function.update state.1 (rn + rn) state.2) rn (rn + 1)
  rw [low, Nat.zero_add, ← Nat.add_assoc, Big.below_succ, Function.update_self,
    Big.below_update_above (Nat.le_refl _), Nat.mul_comm state.2.toNat, total] at split
  rw [split]
  simp only [Nat.add_comm rn]

def montgomeryPower (n : Nat) : Nat := wordBase ^ Big.wordCount n

theorem montgomeryPower_coprime {n : Nat} (odd : n % 2 = 1) : (montgomeryPower n).Coprime n :=
  (((Nat.coprime_two_left).mpr (Nat.odd_iff.mpr odd)).pow_left 32).pow_left _

theorem lt_montgomeryPower (n : Nat) : n < montgomeryPower n := Big.lt_pow_wordCount n

theorem wordCount_le_double {n X : Nat} (small : X < n * montgomeryPower n) :
    Big.wordCount X ≤ Big.wordCount n + Big.wordCount n := by
  by_contra longer
  have low := Big.lt_wordCount.mp (Nat.not_le.mp longer)
  have high : n * montgomeryPower n ≤ montgomeryPower n * montgomeryPower n :=
    Nat.mul_le_mul_right _ (lt_montgomeryPower n).le
  rw [pow_add] at low
  exact absurd (small.trans_le high) (Nat.not_lt.mpr low)

namespace Mip

def mrShift (x : Slot) (n : Int) (w : Slot) (mip : Mip) : Mip :=
  if mip.ernum.isSome then mip
  else
    let mip := mip.copy x w
    if (mip.bigs w).len = 0 ∨ n = 0 then mip
    else
      let bl := (mip.bigs w).len + n
      if bl ≤ 0 then mip.zero w
      else if bl > mip.nib ∧ mip.check then mip.berror .overflow
      else mip.set w ⟨(mip.bigs w).minus, bl.toNat, shiftWords (mip.bigs w).w bl.toNat n⟩

theorem shifted_eq {x : Big} (normal : x.Normal) (some : x.len ≠ 0) (n : Nat) :
    (⟨x.minus, x.len + n, fun i => if i < n then 0 else x.w (i - n)⟩ : Big) =
      Big.ofInt (x.value * wordBase ^ n) := by
  have shiftedNormal : (⟨x.minus, x.len + n, fun i => if i < n then 0 else x.w (i - n)⟩ :
      Big).Normal := by
    constructor
    · intro i above
      simp only at above
      exact (if_neg (by omega)).trans (normal.clean (i - n) (by omega))
    · intro i length zero
      simp only at length
      exact normal.top (i - n) (by omega) ((if_neg (by omega)).symm.trans zero)
    · intro empty
      simp only at empty
      omega
  have words : Big.below (fun i => if i < n then 0 else x.w (i - n)) (x.len + n) =
      x.magnitude * wordBase ^ n := by
    have low : Big.below (fun i => if i < n then 0 else x.w (i - n)) n = 0 :=
      numeral_eq_zero fun i inside => by
        simp only [if_pos inside, UInt32.toNat_zero]
    have high : Big.below (fun i => if n + i < n then 0 else x.w (n + i - n)) x.len =
        x.magnitude := Big.below_congr fun i _ => by
      rw [if_neg (by omega), Nat.add_sub_cancel_left]
    rw [Nat.add_comm, Big.below_append, low, high, Nat.zero_add, Nat.mul_comm]
  rw [shiftedNormal.eq_ofInt, Big.value_eq_signed, Big.magnitude, words, signed_mul,
    Big.value_eq_signed x]
  push_cast
  rfl

theorem mrShift_up {mip : Mip} (clean : mip.Clean) (ready : mip.ernum = none) {x : Slot}
    (normal : (mip.bigs x).Normal) (n : Nat) (w : Slot)
    (room : mip.check = true → (mip.bigs x).len + n ≤ mip.nib) :
    mip.mrShift x n w = mip.set w (Big.ofInt (mip.value x * wordBase ^ n)) := by
  rw [mrShift, if_neg (by simp [ready])]
  simp only [copy_eq x w clean, bigs_set_self, set_set, set_nib, set_check, Nat.cast_eq_zero]
  by_cases nothing : (mip.bigs x).len = 0 ∨ n = 0
  · have same : mip.value x * wordBase ^ n = mip.value x := by
      rcases nothing with empty | zero
      · rw [show mip.value x = 0 from Big.value_of_empty empty, zero_mul]
      · rw [zero, pow_zero, mul_one]
    rw [if_pos nothing, same, normal.eq_ofInt]
    rfl
  · rw [if_neg nothing]
    rw [not_or] at nothing
    have fits : ¬(((mip.bigs x).len : Int) + n > mip.nib ∧ mip.check = true) := by
      rintro ⟨long, check⟩
      have := room check
      omega
    have length : (((mip.bigs x).len : Int) + n).toNat = (mip.bigs x).len + n := by omega
    rw [if_neg (by omega), if_neg fits, length,
      shiftWords_up normal.clean (Nat.pos_of_ne_zero nothing.2), shifted_eq normal nothing.1]
    rfl

theorem mrShift_down {mip : Mip} (clean : mip.Clean) (ready : mip.ernum = none) {x : Slot}
    {n : Nat} (longer : n < (mip.bigs x).len) (w : Slot)
    (room : mip.check = true → (mip.bigs x).len ≤ mip.nib + n) :
    mip.mrShift x (-n) w = mip.set w
      ⟨(mip.bigs x).minus, (mip.bigs x).len - n, fun i => (mip.bigs x).w (i + n)⟩ := by
  rw [mrShift, if_neg (by simp [ready])]
  simp only [copy_eq x w clean, bigs_set_self, set_set, set_nib, set_check, neg_eq_zero,
    Nat.cast_eq_zero]
  by_cases nothing : (mip.bigs x).len = 0 ∨ n = 0
  · have zero : n = 0 := by omega
    rw [if_pos nothing, zero]
    rfl
  · have fits : ¬(((mip.bigs x).len : Int) + -n > mip.nib ∧ mip.check = true) := by
      rintro ⟨long, check⟩
      have := room check
      omega
    have length : (((mip.bigs x).len : Int) + -n).toNat = (mip.bigs x).len - n := by omega
    have words := @shiftWords_down (mip.bigs x).w ((mip.bigs x).len - n) n (by
      rw [Nat.sub_add_cancel longer.le]
      exact clean x)
    rw [if_neg nothing, if_neg (by omega), if_neg fits, length, words]

def redc (x y : Slot) (mip : Mip) : Mip :=
  if mip.ernum.isSome then mip
  else
    let mip := mip.copy x (.w 0)
    if !mip.monty then (mip.divide (.w 0) .modulus .modulus).copy (.w 0) y
    else
      let modulus := mip.bigs .modulus
      let rn := modulus.len
      let (w0g, delayCarry) :=
        forRange 0 rn (redcRound modulus.w rn mip.ndash) ((mip.bigs (.w 0)).w, 0)
      let mip := mip.set (.w 0)
        ⟨false, rn + rn + 1, Function.update w0g (rn + rn) delayCarry⟩
      let mip := (mip.mrShift (.w 0) (-rn) (.w 0)).mrLzero (.w 0)
      let mip := if mip.mrCompare (.w 0) .modulus ≥ 0 then mip.mrPsub (.w 0) .modulus (.w 0) else mip
      mip.copy (.w 0) y

structure Reducing (mip : Mip) (n : Nat) : Prop where
  clean : mip.Clean
  ready : mip.ernum = none
  monty : mip.monty = true
  odd : n % 2 = 1
  large : 2 < n
  modulus : mip.bigs .modulus = Big.ofNat n
  inverse : wordBase ∣ mip.ndash.toNat * n + 1
  room : Big.wordCount n + 1 ≤ mip.nib

/-- The instance as `prepare_monty` leaves it for the modulus `n`. -/
structure Prepared (mip : Mip) (n : Nat) : Prop extends Reducing mip n where
  check : mip.check = true
  one : mip.bigs .one = Big.ofNat (residue n (montgomeryPower n) 1)
  pR : mip.bigs .pR = Big.ofNat (n * montgomeryPower n)

namespace Reducing

variable {mip : Mip} {n : Nat} (reducing : Reducing mip n)

include reducing

theorem coprime : (montgomeryPower n).Coprime n := montgomeryPower_coprime reducing.odd

theorem positive : 0 < n := Nat.zero_lt_two.trans reducing.large

theorem neZero : NeZero n := ⟨Nat.ne_of_gt reducing.positive⟩

theorem length_pos : 0 < Big.wordCount n := by
  rw [Big.lt_wordCount, pow_zero]
  exact reducing.positive

theorem setCheck (check : Bool) : Reducing (mip.setCheck check) n where
  clean := reducing.clean
  ready := reducing.ready
  monty := reducing.monty
  odd := reducing.odd
  large := reducing.large
  modulus := reducing.modulus
  inverse := reducing.inverse
  room := reducing.room

theorem yields {mip' : Mip} {scratch : Slot → Prop} {z : Slot} {result : Int}
    (yields : Yields mip mip' scratch z result) (apart : z ≠ .modulus)
    (kept : ¬scratch .modulus) : Reducing mip' n where
  clean := yields.clean
  ready := by
    rw [yields.rest]
    exact reducing.ready
  monty := by
    rw [yields.rest]
    exact reducing.monty
  odd := reducing.odd
  large := reducing.large
  modulus := (yields.kept _ apart.symm kept).trans reducing.modulus
  inverse := by
    rw [yields.rest]
    exact reducing.inverse
  room := by
    rw [yields.rest]
    exact reducing.room

theorem double_fits {t : Nat} (less : t < 2 * n) : t < wordBase ^ mip.nib := by
  have low := lt_montgomeryPower n
  have base : 2 ≤ wordBase := by decide
  calc t < 2 * n := less
    _ ≤ 2 * wordBase ^ Big.wordCount n := Nat.mul_le_mul_left 2 low.le
    _ ≤ wordBase * wordBase ^ Big.wordCount n := Nat.mul_le_mul_right _ base
    _ = wordBase ^ (Big.wordCount n + 1) := Nat.pow_succ'.symm
    _ ≤ wordBase ^ mip.nib := Nat.pow_le_pow_right Big.wordBase_pos reducing.room

end Reducing

theorem subtractModulus_eq {mip : Mip} (clean : mip.Clean) {n t : Nat}
    (modulus : mip.bigs .modulus = Big.ofNat n) {w : Slot} (number : mip.bigs w = Big.ofNat t) :
    (if mip.mrCompare w .modulus ≥ 0 then mip.mrPsub w .modulus w else mip) =
      mip.set w (Big.ofNat (if n ≤ t then t - n else t)) := by
  have compared := mrCompare_eq (x := w) (y := .modulus)
    (by rw [number]; exact Big.ofNat_normal t) (by rw [modulus]; exact Big.ofNat_normal n)
  have values : mip.value w = t ∧ mip.value .modulus = n := by
    rw [value, value, number, modulus, ← Big.ofInt_natCast, ← Big.ofInt_natCast]
    exact ⟨Big.ofInt_value _, Big.ofInt_value _⟩
  rw [values.1, values.2] at compared
  by_cases le : n ≤ t
  · have subtracted := mrPsub_eq clean (x := w) (y := .modulus)
      (by rw [modulus]; exact Big.ofNat_normal n) w (by
        rw [number, modulus, Big.magnitude_ofNat, Big.magnitude_ofNat]
        exact le)
    rw [number, modulus, Big.magnitude_ofNat, Big.magnitude_ofNat] at subtracted
    rw [if_pos le, compared, if_pos (Int.sign_nonneg_iff.mpr (by omega)), subtracted]
  · have less : ¬((t : Int) - n).sign ≥ 0 := by
      rw [ge_iff_le, Int.sign_nonneg_iff]
      omega
    rw [if_neg le, compared, if_neg less, ← number, set_bigs]

theorem yields_copied {mip : Mip} (clean : mip.Clean) (place : Slot) (result : Nat) (y : Slot) :
    Yields mip ((mip.set place (Big.ofNat result)).copy place y) (· = place) y result := by
  rw [copy_eq _ _ (clean.set (Big.ofNat_normal result).clean), bigs_set_self]
  constructor
  · rfl
  · exact (clean.set (Big.ofNat_normal result).clean).set (Big.ofNat_normal result).clean
  · rw [bigs_set_self, Big.ofInt_natCast]
  · intro slot ne apart
    rw [bigs_set_of_ne _ _ ne, bigs_set_of_ne _ _ apart]

/-- `redc` divides by the power, modulo the modulus, any number less than the modulus times
the power. -/
theorem redc_yields {mip : Mip} {n : Nat} (reducing : Reducing mip n) {x : Slot} {X r : Nat}
    (number : mip.bigs x = Big.ofNat X) (small : X < n * montgomeryPower n) (bound : r < n)
    (cast : (r * montgomeryPower n : ZMod n) = X) (y : Slot) :
    Yields mip (mip.redc x y) (· = .w 0) y r := by
  have modulus : ∀ big, (mip.set (.w 0) big).bigs .modulus = Big.ofNat n := fun big =>
    (bigs_set_of_ne _ _ (by decide)).trans reducing.modulus
  have words : Big.below (Big.ofNat n).w (Big.wordCount n) = n := Big.magnitude_ofNat n
  have rounds := @redcRounds (Big.ofNat n).w (Big.ofNat X).w _ mip.ndash reducing.length_pos
    (by rw [words]; exact reducing.inverse)
  have length : (Big.ofNat n).len = Big.wordCount n := rfl
  have short := wordCount_le_double small
  have whole : Big.below (Big.ofNat X).w (Big.wordCount n + Big.wordCount n) = X :=
    ((Big.ofNat_normal X).clean.below_eq short).trans (Big.magnitude_ofNat X)
  rw [redc, if_neg (by simp [reducing.ready])]
  simp only [copy_eq x (.w 0) reducing.clean, number, set_monty, reducing.monty, Bool.not_true,
    Bool.false_eq_true, if_false, modulus, bigs_set_self, set_set, set_ndash, length]
  generalize forRange 0 (Big.wordCount n) _ _ = state at rounds ⊢
  rcases redcRounds_quotient rounds with ⟨quotient, quotientBound, total⟩
  rcases state with ⟨w0g, delayCarry⟩
  rw [words, whole] at total
  simp only at total ⊢
  have product : Big.Clean ⟨false, Big.wordCount n + Big.wordCount n + 1,
      Function.update w0g (Big.wordCount n + Big.wordCount n) delayCarry⟩ := by
    intro i above
    simp only at above
    apply (Function.update_of_ne (by omega) _ _).trans
    exact (rounds.behind i (by omega)).trans ((Big.ofNat_normal X).clean i (by
      rw [show (Big.ofNat X).len = Big.wordCount X from rfl]
      omega))
  have shifted := @mrShift_down (mip.set (.w 0) _) (reducing.clean.set product)
    reducing.ready (.w 0) (Big.wordCount n) (by rw [bigs_set_self]; simp only; omega)
    (.w 0) fun _ => by
      have := reducing.room
      rw [bigs_set_self, set_nib]
      simp only
      omega
  have longer : Big.wordCount n + Big.wordCount n + 1 - Big.wordCount n = Big.wordCount n + 1 := by
    omega
  have stripped := @Big.lzero_words _ (Big.wordCount n + 1) _
    (fun i above => product (i + Big.wordCount n) (by simp only; omega)) rfl
  rw [shifted, mrLzero]
  simp only [bigs_set_self, set_set, longer, stripped]
  generalize Big.below (fun i => Function.update w0g _ delayCarry _) _ = t at total ⊢
  have reduced := reduce_once (quotient_lt total small quotientBound)
  have same : (if n ≤ t then t - n else t) = r :=
    eq_of_mul_power reducing.coprime reduced.1 bound (by
      rw [reduced.2, cast]
      exact cast_quotient total)
  rw [subtractModulus_eq (reducing.clean.set (Big.ofNat_normal t).clean) (modulus _)
    (bigs_set_self _ _ _), set_set, same]
  exact yields_copied reducing.clean (.w 0) r y

end Mip

end Penglai.Miracl
