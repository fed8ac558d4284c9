import Penglai.Miracl.Magnitudes
import Penglai.Miracl.Rows

namespace Penglai.Miracl

/-! # Products and quotients by small numbers

`mr_pmul`, `mr_sdiv` and what `mrarth1.c` builds on them. A division by two is done
by shifting. -/

/-! ## Columns -/

def doubleword (top bottom : UInt32) : UInt64 := (top.toUInt64 <<< 32) + bottom.toUInt64

theorem toNat_doubleword (top bottom : UInt32) :
    (doubleword top bottom).toNat = top.toNat * wordBase + bottom.toNat := by
  have topBound := top.toNat_lt
  have bottomBound := bottom.toNat_lt
  have places : (32 : UInt64).toNat % 64 = 32 := rfl
  rw [doubleword, UInt64.toNat_add, UInt64.toNat_shiftLeft, places, UInt32.toNat_toUInt64,
    UInt32.toNat_toUInt64, Nat.shiftLeft_eq, wordBase]
  omega

def divWords (word sr sn : UInt32) : UInt32 × UInt32 :=
  let dble := doubleword sr word
  let quotient := (dble / sn.toUInt64).toUInt32
  (quotient, (dble - quotient.toUInt64 * sn.toUInt64).toUInt32)

theorem divWords_balance (word : UInt32) {sr sn : UInt32} (less : sr.toNat < sn.toNat) :
    word.toNat + wordBase * sr.toNat =
      sn.toNat * (divWords word sr sn).1.toNat + (divWords word sr sn).2.toNat ∧
    (divWords word sr sn).2.toNat < sn.toNat := by
  have snBound := sn.toNat_lt
  have wordBound := word.toNat_lt
  have dble := toNat_doubleword sr word
  have small : (doubleword sr word).toNat / sn.toNat < 2 ^ 32 := by
    rw [dble]
    apply Nat.div_lt_of_lt_mul
    have : (sr.toNat + 1) * wordBase ≤ sn.toNat * wordBase := Nat.mul_le_mul_right _ less
    rw [add_mul, one_mul] at this
    simp only [wordBase] at this ⊢
    omega
  have quotient : (divWords word sr sn).1.toNat = (doubleword sr word).toNat / sn.toNat := by
    rw [divWords, UInt64.toNat_toUInt32, UInt64.toNat_div, UInt32.toNat_toUInt64,
      Nat.mod_eq_of_lt small]
  have parts := Nat.div_add_mod (doubleword sr word).toNat sn.toNat
  have remainder : (divWords word sr sn).2.toNat = (doubleword sr word).toNat % sn.toNat := by
    have product : ((divWords word sr sn).1.toUInt64 * sn.toUInt64).toNat =
        sn.toNat * ((doubleword sr word).toNat / sn.toNat) := by
      rw [UInt64.toNat_mul, UInt32.toNat_toUInt64, UInt32.toNat_toUInt64, quotient, Nat.mul_comm,
        Nat.mod_eq_of_lt]
      exact (Nat.mul_div_le _ _).trans_lt (UInt64.toNat_lt _)
    have below : (divWords word sr sn).1.toUInt64 * sn.toUInt64 ≤ doubleword sr word :=
      UInt64.le_iff_toNat_le.mpr (product ▸ Nat.mul_div_le _ _)
    have difference : ((doubleword sr word) - (divWords word sr sn).1.toUInt64 *
        sn.toUInt64).toNat = (doubleword sr word).toNat % sn.toNat := by
      rw [UInt64.toNat_sub_of_le _ _ below, product]
      omega
    have tiny := Nat.mod_lt (doubleword sr word).toNat (Nat.zero_lt_of_lt less)
    rw [show (divWords word sr sn).2 = (doubleword sr word - (divWords word sr sn).1.toUInt64 *
      sn.toUInt64).toUInt32 from rfl, UInt64.toNat_toUInt32, difference, Nat.mod_eq_of_lt]
    omega
  rw [quotient, remainder]
  refine ⟨?_, Nat.mod_lt _ (Nat.zero_lt_of_lt less)⟩
  rw [parts, dble]
  ring

theorem shift_balance (word next : UInt32) :
    word.toNat + wordBase * (next.toNat % 2) =
      2 * ((word >>> 1) ||| ((next &&& 1) <<< 31)).toNat + word.toNat % 2 := by
  have wordBound := word.toNat_lt
  have low : (word >>> 1).toNat = word.toNat / 2 := by
    rw [UInt32.toNat_shiftRight]
    rfl
  have bit : (next &&& 1).toNat = next.toNat % 2 := by
    rw [UInt32.toNat_and, show (1 : UInt32).toNat = 2 ^ 1 - 1 from rfl, Nat.and_two_pow_sub_one_eq_mod]
  have high : ((next &&& 1) <<< 31).toNat = next.toNat % 2 * 2 ^ 31 := by
    have places : (31 : UInt32).toNat % 32 = 31 := rfl
    rw [UInt32.toNat_shiftLeft, places, bit, Nat.shiftLeft_eq, Nat.mod_eq_of_lt]
    omega
  have join : ((word >>> 1) ||| ((next &&& 1) <<< 31)).toNat =
      word.toNat / 2 + next.toNat % 2 * 2 ^ 31 := by
    rw [UInt32.toNat_or, low, high, Nat.or_comm, Nat.mul_comm,
      ← Nat.two_pow_add_eq_or_of_lt (by omega), Nat.add_comm]
  rw [join, wordBase]
  omega

theorem signed_mul (minus : Bool) (magnitude factor : Nat) :
    Big.signed minus (magnitude * factor) = Big.signed minus magnitude * factor := by
  cases minus with
  | false => exact Nat.cast_mul _ _
  | true =>
      simp only [Big.signed, if_true]
      push_cast
      ring

theorem signed_tdiv (minus : Bool) (magnitude divisor : Nat) :
    (Big.signed minus magnitude).tdiv divisor = Big.signed minus (magnitude / divisor) := by
  cases minus with
  | false => exact Int.ofNat_tdiv _ _
  | true =>
      simp only [Big.signed, if_true]
      rw [Int.neg_tdiv, Int.ofNat_tdiv]

theorem signed_tmod (minus : Bool) (magnitude divisor : Nat) :
    (Big.signed minus magnitude).tmod divisor = Big.signed minus (magnitude % divisor) := by
  cases minus with
  | false => exact Int.ofNat_tmod _ _
  | true =>
      simp only [Big.signed, if_true]
      rw [Int.neg_tmod, Int.ofNat_tmod]

namespace Mip

/-! ## Multiplication by a word -/

def pmulLoop (x : Slot) (sn : UInt32) (z : Slot) (mip : Mip) : (Nat → UInt32) × UInt32 :=
  forRange 0 (mip.bigs x).len
    (sweepStep id fun zg m carry => mulWords (mip.pointer z zg x m) sn carry 0)
    ((mip.bigs z).w, 0)

def mrPmul (x : Slot) (sn : UInt32) (z : Slot) (mip : Mip) : Mip :=
  if sn = 0 then mip.zero z
  else
    let mip := if x ≠ z then mip.zero z else mip
    let sx := (mip.bigs x).minus
    let xl := (mip.bigs x).len
    let (zg, carry) := mip.pmulLoop x sn z
    if carry > 0 then
      if xl ≥ mip.nib ∧ mip.check then
        (mip.set z { mip.bigs z with w := zg }).berror .overflow
      else mip.set z ⟨sx, xl + 1, Function.update zg xl carry⟩
    else mip.set z ⟨sx && decide (xl ≠ 0), xl, zg⟩

def premult (x : Slot) (n : Int) (z : Slot) (mip : Mip) : Mip :=
  if mip.ernum.isSome then mip
  else if n = 0 then mip.zero z
  else if n = 1 then mip.copy x z
  else if n < 0 then
    let mip := mip.mrPmul x (UInt32.ofNat n.natAbs) z
    if (mip.bigs z).len ≠ 0 then mip.set z { mip.bigs z with minus := !(mip.bigs z).minus } else mip
  else mip.mrPmul x (UInt32.ofNat n.natAbs) z

/-! ## Division by a word -/

def sdivLoop (x : Slot) (sn : UInt32) (z : Slot) (mip : Mip) : (Nat → UInt32) × UInt32 :=
  let xl := (mip.bigs x).len
  forRange 0 xl
    (sweepStep (xl - 1 - ·) fun zg k sr => divWords (mip.pointer z zg x (xl - 1 - k)) sr sn)
    ((mip.bigs z).w, 0)

def mrSdiv (x : Slot) (sn : UInt32) (z : Slot) (mip : Mip) : Mip × UInt32 :=
  let mip := if x ≠ z then mip.zero z else mip
  let (zg, sr) := mip.sdivLoop x sn z
  ((mip.set z ⟨(mip.bigs x).minus, (mip.bigs x).len, zg⟩).mrLzero z, sr)

def halveRound (i : Nat) (w : Nat → UInt32) : Nat → UInt32 :=
  Function.update w i ((w i >>> 1) ||| ((w (i + 1) &&& 1) <<< 31))

def halve (w : Nat → UInt32) (msb : Nat) : Nat → UInt32 :=
  let w := forRange 0 msb halveRound w
  Function.update w msb (w msb >>> 1)

def subdiv (x : Slot) (n : Int) (z : Slot) (mip : Mip) : Mip × Int :=
  if mip.ernum.isSome then (mip, 0)
  else if n = 0 then (mip.berror .divByZero, 0)
  else if (mip.bigs x).len = 0 then (mip.zero z, 0)
  else if n = 1 then (mip.copy x z, 0)
  else
    let sx := (mip.bigs x).minus
    if n = 2 then
      let mip := mip.copy x z
      let big := mip.bigs z
      let msb := big.len - 1
      let r : Nat := (big.w 0 &&& 1).toNat
      let w := halve big.w msb
      let mip := mip.set z { big with w := w }
      (if w msb = 0 then mip.mrLzero z else mip, Big.signed sx r)
    else
      let (mip, sr) := mip.mrSdiv x (UInt32.ofNat n.natAbs) z
      let mip :=
        if n < 0 ∧ (mip.bigs z).len ≠ 0 then
          mip.set z { mip.bigs z with minus := !(mip.bigs z).minus }
        else mip
      (mip, Big.signed sx sr.toNat)

def remain (x : Slot) (n : Int) (mip : Mip) : Mip × Int :=
  if mip.ernum.isSome then (mip, 0)
  else if n = 2 ∨ n = 8 then
    (mip, Big.signed (mip.bigs x).minus (((mip.bigs x).w 0).toNat % n.natAbs))
  else (mip.copy x (.w 0)).subdiv (.w 0) n (.w 0)

/-! ## What they compute -/

/-- The result is cleared first unless it is the operand: either way the operand keeps its
words, and the result has none above its length. -/
theorem cleared {mip : Mip} (clean : mip.Clean) (x z : Slot) :
    (if x ≠ z then mip.zero z else mip).bigs x = mip.bigs x ∧
      (∀ i, (mip.bigs x).len ≤ i → ((if x ≠ z then mip.zero z else mip).bigs z).w i = 0) ∧
      ∀ big, (if x ≠ z then mip.zero z else mip).set z big = mip.set z big := by
  by_cases apart : x = z
  · subst apart
    simp only [ne_eq, not_true_eq_false, if_false]
    exact ⟨trivial, clean x, fun _ => trivial⟩
  · rw [if_pos apart, zero_eq z clean]
    refine ⟨bigs_set_of_ne _ _ apart, fun i _ => ?_, fun big => set_set _ _ _ _⟩
    rw [bigs_set_self]
    exact (Big.ofInt_normal 0).clean i (Nat.zero_le i)

theorem pmulLoop_total (mip : Mip) (x : Slot) (sn : UInt32) (z : Slot) :
    (∀ i, (mip.bigs x).len ≤ i → (mip.pmulLoop x sn z).1 i = (mip.bigs z).w i) ∧
      Big.below (mip.pmulLoop x sn z).1 (mip.bigs x).len +
          wordBase ^ (mip.bigs x).len * (mip.pmulLoop x sn z).2.toNat =
        (mip.bigs x).magnitude * sn.toNat := by
  have swept : Swept id (fun m carry => mulWords ((mip.bigs x).w m) sn carry 0) (mip.bigs z).w 0
      (mip.bigs x).len (mip.pmulLoop x sn z) := by
    apply swept_forRange
    · intro m _ zg unwritten
      have here := unwritten m fun earlier before => Nat.ne_of_lt before
      funext carry
      simp only [pointer_eq here]
    · exact fun _ _ _ before => Nat.ne_of_lt before
  refine ⟨fun i above => swept.untouched i fun earlier inside =>
    Nat.ne_of_lt (inside.trans_le above), ?_⟩
  have balance := numeral_balance wordBase (fun i => ((mip.pmulLoop x sn z).1 i).toNat)
    (fun i => sn.toNat * ((mip.bigs x).w i).toNat)
    (fun i => (carryInto
      (fun m carry => mulWords ((mip.bigs x).w m) sn carry 0) 0 i).toNat) (fun _ => 0)
    (fun i (inside : i < (mip.bigs x).len) => by
      have column := mulWords_balance ((mip.bigs x).w i) sn
        (carryInto (fun m carry => mulWords ((mip.bigs x).w m) sn carry 0) 0 i) 0
      have written := swept.written i inside
      simp only [id_eq] at written
      rw [UInt32.toNat_zero, add_zero, Nat.mul_comm ((mip.bigs x).w i).toNat] at column
      simp only [written, carryInto_succ, digitOf]
      omega)
  rw [numeral_mul] at balance
  rw [show (mip.pmulLoop x sn z).2 = _ from swept.carry, Nat.mul_comm (mip.bigs x).magnitude]
  simpa [Big.below, Big.magnitude] using balance

theorem signed_normal (minus : Bool) {len magnitude : Nat} {w : Nat → UInt32}
    (clean : ∀ i, len ≤ i → w i = 0) (words : Big.below w len = magnitude)
    (length : len = Big.wordCount magnitude) :
    (⟨minus && decide (len ≠ 0), len, w⟩ : Big) = Big.ofInt (Big.signed minus magnitude) := by
  have normal : (⟨minus && decide (len ≠ 0), len, w⟩ : Big).Normal := by
    apply Big.normal_of_length
    · exact clean
    · exact length.trans (congrArg Big.wordCount words.symm)
    · intro empty
      simp only at empty
      simp [empty]
  rw [normal.eq_ofInt, Big.value_eq_signed]
  simp only [Big.magnitude, words]
  congr 1
  cases size : len with
  | zero =>
      rw [size, Big.below_zero] at words
      simp [← words, Big.signed]
  | succ i => simp

/-- `mr_pmul` multiplies by a word. A product as long as the operand is never too long. -/
theorem mrPmul_eq {mip : Mip} (clean : mip.Clean) {x : Slot} (normal : (mip.bigs x).Normal)
    (sn : UInt32) (z : Slot)
    (fits : mip.check = true →
      (mip.bigs x).magnitude * sn.toNat < wordBase ^ max mip.nib (mip.bigs x).len) :
    mip.mrPmul x sn z = mip.set z (Big.ofInt (mip.value x * sn.toNat)) := by
  rw [mrPmul]
  split
  · rename_i zero
    rw [zero, UInt32.toNat_zero, Nat.cast_zero, mul_zero, zero_eq z clean]
  · rename_i nonzero
    have positive : 0 < sn.toNat :=
      Nat.pos_of_ne_zero fun zero => nonzero (UInt32.toNat_inj.mp zero)
    rcases cleared clean x z with ⟨operand, behind, overwritten⟩
    have checks : (if x ≠ z then mip.zero z else mip).check = mip.check ∧
        (if x ≠ z then mip.zero z else mip).nib = mip.nib := by
      split <;> exact ⟨rfl, rfl⟩
    generalize (if x ≠ z then mip.zero z else mip) = mip' at *
    have loop := mip'.pmulLoop_total x sn z
    simp only [operand, checks.1, checks.2] at loop ⊢
    rw [show mip.value x = Big.signed (mip.bigs x).minus (mip.bigs x).magnitude from rfl,
      ← signed_mul]
    generalize mip'.pmulLoop x sn z = state at loop ⊢
    rcases state with ⟨zg, carry⟩
    have low : ∀ i, (mip.bigs x).len = i + 1 → wordBase ^ i ≤ (mip.bigs x).magnitude * sn.toNat :=
      fun i length => (normal.pow_le length).trans (Nat.le_mul_of_pos_right _ positive)
    have zeros : ∀ i, (mip.bigs x).len ≤ i → zg i = 0 :=
      fun i above => (loop.1 i above).trans (behind i above)
    have total := loop.2
    generalize (mip.bigs x).len = xl, (mip.bigs x).magnitude * sn.toNat = product at *
    simp only at total ⊢
    split
    · rename_i carried
      have some : 1 ≤ carry.toNat := UInt32.lt_iff_toNat_lt.mp carried
      have reached : wordBase ^ xl * 1 ≤ wordBase ^ xl * carry.toNat := Nat.mul_le_mul_left _ some
      have words : Big.below (Function.update zg xl carry) (xl + 1) = product := by
        rw [Big.below_succ, Function.update_self, Big.below_update_above (Nat.le_refl xl),
          Nat.mul_comm, total]
      have room : ¬(xl ≥ mip.nib ∧ mip.check = true) := by
        rintro ⟨full, check⟩
        have short := fits check
        rw [max_eq_right full] at short
        omega
      rw [if_neg room, overwritten]
      congr 1
      have number := signed_normal (mip.bigs x).minus (w := Function.update zg xl carry)
        (fun i above => (Function.update_of_ne (Nat.ne_of_gt above) _ _).trans
          (zeros i (Nat.le_of_succ_le above))) words
        (Big.wordCount_eq (by omega) (words ▸ Big.below_lt _ _)).symm
      simpa using number
    · rename_i stopped
      have none : carry.toNat = 0 := by
        have := UInt32.not_lt.mp stopped
        exact Nat.le_zero.mp (UInt32.le_iff_toNat_le.mp this)
      rw [none, mul_zero, add_zero] at total
      rw [overwritten]
      congr 1
      apply signed_normal _ zeros total
      cases size : xl with
      | zero =>
          rw [size, Big.below_zero] at total
          rw [← total, Big.wordCount_zero]
      | succ i => exact (Big.wordCount_eq (low i size) (size ▸ total ▸ Big.below_lt zg xl)).symm

theorem sdivLoop_total (mip : Mip) (x : Slot) {sn : UInt32} (nonzero : 0 < sn.toNat) (z : Slot) :
    (∀ i, (mip.bigs x).len ≤ i → (mip.sdivLoop x sn z).1 i = (mip.bigs z).w i) ∧
      (mip.bigs x).magnitude = sn.toNat * Big.below (mip.sdivLoop x sn z).1 (mip.bigs x).len +
        (mip.sdivLoop x sn z).2.toNat ∧
      (mip.sdivLoop x sn z).2.toNat < sn.toNat := by
  have swept : Swept ((mip.bigs x).len - 1 - ·)
      (fun k sr => divWords ((mip.bigs x).w ((mip.bigs x).len - 1 - k)) sr sn) (mip.bigs z).w 0
      (mip.bigs x).len (mip.sdivLoop x sn z) := by
    apply swept_forRange
    · intro k inside zg unwritten
      have here := unwritten ((mip.bigs x).len - 1 - k) fun earlier before =>
        (by omega : (mip.bigs x).len - 1 - earlier ≠ (mip.bigs x).len - 1 - k)
      funext sr
      simp only [pointer_eq here]
    · exact fun k inside earlier before =>
        (by omega : (mip.bigs x).len - 1 - earlier ≠ (mip.bigs x).len - 1 - k)
  have small : ∀ k ≤ (mip.bigs x).len, (carryInto
      (fun k sr => divWords ((mip.bigs x).w ((mip.bigs x).len - 1 - k)) sr sn) 0 k).toNat <
        sn.toNat :=
    carryInto_invariant _ _ (fun sr : UInt32 => sr.toNat < sn.toNat) (by rwa [UInt32.toNat_zero])
      fun k _ sr less => (divWords_balance _ less).2
  have final : (mip.sdivLoop x sn z).2 = _ := swept.carry
  refine ⟨fun i above => swept.untouched i fun earlier inside =>
    (by omega : (mip.bigs x).len - 1 - earlier ≠ i), ?_, final ▸ small _ (Nat.le_refl _)⟩
  have balance := numeral_balance wordBase (fun i => ((mip.bigs x).w i).toNat)
    (fun i => sn.toNat * ((mip.sdivLoop x sn z).1 i).toNat)
    (fun i => (carryInto
      (fun k sr => divWords ((mip.bigs x).w ((mip.bigs x).len - 1 - k)) sr sn) 0
      ((mip.bigs x).len - i)).toNat) (fun _ => 0)
    (fun i (inside : i < (mip.bigs x).len) => by
      have place : (mip.bigs x).len - 1 - ((mip.bigs x).len - (i + 1)) = i := by omega
      have written := swept.written ((mip.bigs x).len - (i + 1)) (by omega)
      have column := (divWords_balance ((mip.bigs x).w i)
        (small ((mip.bigs x).len - (i + 1)) (by omega))).1
      simp only [place] at written
      rw [show (mip.bigs x).len - i = (mip.bigs x).len - (i + 1) + 1 by omega, carryInto_succ]
      simp only [written, digitOf, place]
      omega)
  rw [numeral_mul, Nat.sub_self, Nat.sub_zero, ← final] at balance
  simpa [Big.below, Big.magnitude] using balance

theorem mrSdiv_eq {mip : Mip} (clean : mip.Clean) (x : Slot) {sn : UInt32} (nonzero : 0 < sn.toNat)
    (z : Slot) :
    (mip.mrSdiv x sn z).1 = mip.set z (Big.ofInt ((mip.value x).tdiv sn.toNat)) ∧
      (mip.mrSdiv x sn z).2.toNat = (mip.bigs x).magnitude % sn.toNat := by
  rcases cleared clean x z with ⟨operand, behind, overwritten⟩
  rw [mrSdiv]
  generalize (if x ≠ z then mip.zero z else mip) = mip' at *
  have loop := mip'.sdivLoop_total x nonzero z
  simp only [operand] at loop ⊢
  generalize mip'.sdivLoop x sn z = state at loop ⊢
  rcases state with ⟨zg, sr⟩
  rcases loop with ⟨unchanged, total, small⟩
  have zeros : ∀ i, (mip.bigs x).len ≤ i → zg i = 0 :=
    fun i above => (unchanged i above).trans (behind i above)
  simp only at total small ⊢
  have quotient : Big.below zg (mip.bigs x).len = (mip.bigs x).magnitude / sn.toNat := by
    rw [total, Nat.mul_add_div nonzero, Nat.div_eq_of_lt small, add_zero]
  refine ⟨?_, by rw [total, Nat.mul_add_mod, Nat.mod_eq_of_lt small]⟩
  have wordsClean : (⟨(mip.bigs x).minus, (mip.bigs x).len, zg⟩ : Big).Clean := zeros
  rw [mrLzero, bigs_set_self, set_set, overwritten, Big.lzero_eq wordsClean, Big.value_eq_signed,
    show mip.value x = Big.signed (mip.bigs x).minus (mip.bigs x).magnitude from rfl, signed_tdiv,
    ← quotient]
  rfl

theorem premult_eq {mip : Mip} (clean : mip.Clean) (ready : mip.ernum = none) {x : Slot}
    (normal : (mip.bigs x).Normal) {n : Int} (small : n.natAbs < wordBase) (z : Slot)
    (fits : mip.check = true → (mip.value x * n).natAbs < wordBase ^ mip.nib) :
    mip.premult x n z = mip.set z (Big.ofInt (mip.value x * n)) := by
  have word : (UInt32.ofNat n.natAbs).toNat = n.natAbs := UInt32.toNat_ofNat_of_lt' small
  have product := mrPmul_eq clean normal (UInt32.ofNat n.natAbs) z (by
    intro check
    rw [word, ← Big.natAbs_value, ← Int.natAbs_mul]
    exact (fits check).trans_le (Nat.pow_le_pow_right Big.wordBase_pos (Nat.le_max_left _ _)))
  rw [word] at product
  rw [premult, if_neg (by simp [ready])]
  split
  · rename_i zero
    rw [zero_eq z clean, zero, mul_zero]
  · split
    · rename_i one
      rw [copy_eq x z clean, one, mul_one, normal.eq_ofInt]
      rfl
    · split
      · rename_i negative
        rw [product, set_neg]
        congr 2
        rw [← mul_neg]
        congr 1
        omega
      · rw [product]
        congr 3
        omega

theorem halveLoop_words (w : Nat → UInt32) (msb : Nat) :
    (∀ i < msb, forRange 0 msb halveRound w i = (w i >>> 1) ||| ((w (i + 1) &&& 1) <<< 31)) ∧
      ∀ i, msb ≤ i → forRange 0 msb halveRound w i = w i := by
  apply forRange_invariant (fun done (state : Nat → UInt32) =>
    (∀ i < done, state i = (w i >>> 1) ||| ((w (i + 1) &&& 1) <<< 31)) ∧
      ∀ i, done ≤ i → state i = w i)
  · exact ⟨fun i before => absurd before (Nat.not_lt_zero i), fun _ _ => rfl⟩
  · intro done _ state ⟨written, unwritten⟩
    rw [Nat.zero_add]
    constructor
    · intro i before
      rcases Nat.lt_succ_iff_lt_or_eq.mp before with earlier | rfl
      · rw [halveRound, Function.update_of_ne (Nat.ne_of_lt earlier)]
        exact written i earlier
      · rw [halveRound, Function.update_self, unwritten i (Nat.le_refl i),
          unwritten (i + 1) (Nat.le_succ i)]
    · intro i above
      rw [halveRound, Function.update_of_ne (Nat.ne_of_gt above)]
      exact unwritten i (Nat.le_of_succ_le above)

theorem halve_words (w : Nat → UInt32) (msb : Nat) :
    (∀ i < msb, halve w msb i = (w i >>> 1) ||| ((w (i + 1) &&& 1) <<< 31)) ∧
      halve w msb msb = w msb >>> 1 ∧ ∀ i, msb < i → halve w msb i = w i := by
  have loop := halveLoop_words w msb
  refine ⟨fun i before => ?_, ?_, fun i above => ?_⟩
  · rw [halve, Function.update_of_ne (Nat.ne_of_lt before)]
    exact loop.1 i before
  · rw [halve, Function.update_self, loop.2 msb (Nat.le_refl msb)]
  · rw [halve, Function.update_of_ne (Nat.ne_of_gt above)]
    exact loop.2 i above.le

theorem halve_total (w : Nat → UInt32) {msb : Nat} (top : w (msb + 1) = 0) :
    Big.below w (msb + 1) = 2 * Big.below (halve w msb) (msb + 1) + (w 0).toNat % 2 := by
  rcases halve_words w msb with ⟨lower, last, _⟩
  have balance := numeral_balance wordBase (fun i => (w i).toNat)
    (fun i => 2 * (halve w msb i).toNat) (fun i => (w i).toNat % 2) (fun _ => 0)
    (fun i (inside : i < msb + 1) => by
      have column := shift_balance (w i) (w (i + 1))
      rcases Nat.lt_succ_iff_lt_or_eq.mp inside with before | rfl
      · rw [lower i before]
        omega
      · rw [top] at column ⊢
        rw [last]
        simpa using column)
  rw [numeral_mul, top] at balance
  simpa [Big.below] using balance

theorem halve_eq {x : Big} (normal : x.Normal) (some : x.len ≠ 0) :
    (if halve x.w (x.len - 1) (x.len - 1) = 0 then
      ({ x with w := halve x.w (x.len - 1) } : Big).lzero
    else { x with w := halve x.w (x.len - 1) }) = Big.ofInt (x.value.tdiv 2) := by
  rcases Nat.exists_eq_succ_of_ne_zero some with ⟨msb, length⟩
  have words := halve_words x.w msb
  have total := halve_total x.w (normal.clean (msb + 1) (by omega))
  rw [show x.len - 1 = msb by omega]
  have halfClean : ({ x with w := halve x.w msb } : Big).Clean := by
    intro i above
    exact (words.2.2 i (by simp only at above; omega)).trans (normal.clean i above)
  have half : ({ x with w := halve x.w msb } : Big).value = x.value.tdiv 2 := by
    have magnitude : Big.below (halve x.w msb) x.len = x.magnitude / 2 := by
      rw [Big.magnitude, length, Nat.succ_eq_add_one, total]
      omega
    have quotient := signed_tdiv x.minus x.magnitude 2
    rw [← magnitude] at quotient
    exact quotient.symm
  split
  · rw [Big.lzero_eq halfClean, half]
  · rename_i top
    have halfNormal : ({ x with w := halve x.w msb } : Big).Normal := by
      refine ⟨halfClean, fun i size => ?_, fun empty => absurd empty some⟩
      rw [show i = msb by simp only at size; omega]
      exact top
    rw [halfNormal.eq_ofInt, half]

theorem and_one_toNat (word : UInt32) : (word &&& 1).toNat = word.toNat % 2 := by
  rw [UInt32.toNat_and, show (1 : UInt32).toNat = 2 ^ 1 - 1 from rfl, Nat.and_two_pow_sub_one_eq_mod]

theorem Big.magnitude_mod_word {x : Big} (clean : x.Clean) {divisor : Nat}
    (divides : divisor ∣ wordBase) : x.magnitude % divisor = (x.w 0).toNat % divisor := by
  have split : Big.below x.w (x.len + 1) =
      (x.w 0).toNat + wordBase * Big.below (fun i => x.w (1 + i)) x.len := by
    rw [Nat.add_comm x.len, Big.below_append, Big.below_succ, Big.below_zero, pow_zero, mul_one,
      zero_add, pow_one]
  rw [← clean.below_eq (Nat.le_succ x.len), split]
  exact (Nat.modEq_iff_dvd' (Nat.le_add_right _ _)).mpr
    (by rw [Nat.add_sub_cancel_left]; exact divides.mul_right _) |>.symm

theorem subdiv_eq {mip : Mip} (clean : mip.Clean) (ready : mip.ernum = none) {x : Slot}
    (normal : (mip.bigs x).Normal) {n : Int} (nonzero : n ≠ 0) (small : n.natAbs < wordBase)
    (z : Slot) :
    mip.subdiv x n z = (mip.set z (Big.ofInt ((mip.value x).tdiv n)), (mip.value x).tmod n) := by
  rw [subdiv, if_neg (by simp [ready]), if_neg nonzero]
  split
  · rename_i empty
    rw [show mip.value x = 0 from Big.value_of_empty empty, Int.zero_tdiv, Int.zero_tmod,
      zero_eq z clean]
  · rename_i some
    split
    · rename_i one
      rw [one, Int.tdiv_one, Int.tmod_one, copy_eq x z clean, normal.eq_ofInt]
      rfl
    · split
      · rename_i two
        simp only [copy_eq x z clean, bigs_set_self, set_set, mrLzero]
        rw [two, Prod.mk.injEq]
        constructor
        · have half := halve_eq normal some
          split at half
          · rename_i zero
            rw [if_pos zero, half]
            rfl
          · rename_i top
            rw [if_neg top, half]
            rfl
        · rw [and_one_toNat, ← Big.magnitude_mod_word normal.clean (by decide), ← signed_tmod]
          rfl
      · have word : (UInt32.ofNat n.natAbs).toNat = n.natAbs := UInt32.toNat_ofNat_of_lt' small
        have positive : 0 < (UInt32.ofNat n.natAbs).toNat := by
          rw [word]
          omega
        rcases mrSdiv_eq clean x positive z with
          ⟨quotient, remainder⟩
        rw [word] at quotient remainder
        simp only [quotient, remainder]
        rw [Prod.mk.injEq]
        constructor
        · by_cases negative : n < 0
          · have flipped := set_neg mip z ((mip.value x).tdiv n.natAbs)
            rw [← Int.tdiv_neg, show -((n.natAbs : Nat) : Int) = n by omega] at flipped
            simpa only [negative, true_and] using flipped
          · rw [if_neg fun both => negative both.1, show ((n.natAbs : Nat) : Int) = n by omega]
        · rw [← signed_tmod]
          rcases Int.natAbs_eq n with plus | minus
          · rw [← plus]
            rfl
          · rw [minus, Int.tmod_neg, Int.natAbs_neg, Int.natAbs_natCast]
            rfl

/-- `remain` agrees with `subdiv`, also where it only looks at the lowest word. -/
theorem remain_eq {mip : Mip} (clean : mip.Clean) (ready : mip.ernum = none) {x : Slot}
    (normal : (mip.bigs x).Normal) {n : Int} (nonzero : n ≠ 0) (small : n.natAbs < wordBase) :
    (mip.remain x n).2 = (mip.value x).tmod n := by
  rw [remain, if_neg (by simp [ready])]
  split
  · rename_i low
    have divides : n.natAbs ∣ wordBase := by
      rcases low with rfl | rfl
      · decide
      · decide
    have positive : ((n.natAbs : Nat) : Int) = n := by omega
    rw [← Big.magnitude_mod_word normal.clean divides, ← signed_tmod, positive]
    rfl
  · have copied : (mip.set (.w 0) (mip.bigs x)).value (.w 0) = mip.value x := by
      rw [value, bigs_set_self, value]
    rw [copy_eq x (.w 0) clean, subdiv_eq (clean.set (clean x)) ready
      (by rw [bigs_set_self]; exact normal) nonzero small, copied]

/-- Nothing is calculated to find the lowest bit. -/
theorem remain_two {mip : Mip} (clean : mip.Clean) (ready : mip.ernum = none) {x : Slot}
    (normal : (mip.bigs x).Normal) : mip.remain x 2 = (mip, (mip.value x).tmod 2) := by
  apply Prod.ext
  · rw [remain, if_neg (by simp [ready]), if_pos (Or.inl rfl)]
  · exact remain_eq clean ready normal (by decide) (by decide)

/-- Division by an `int`: the quotient is rounded towards zero, the remainder is returned, and
`remain` returns the same one. -/
theorem subdiv_exact {mip : Mip} (clean : mip.Clean) (ready : mip.ernum = none) {x : Slot}
    (normal : (mip.bigs x).Normal) {n : Int} (small : n.natAbs < wordBase) (z : Slot) :
    if n = 0 then (mip.subdiv x n z).1.ernum = some .divByZero
    else mip.subdiv x n z = (mip.set z (Big.ofInt ((mip.value x).tdiv n)), (mip.value x).tmod n) ∧
      (mip.remain x n).2 = (mip.value x).tmod n := by
  split
  · rename_i zero
    rw [subdiv, if_neg (by simp [ready]), if_pos zero]
    rfl
  · rename_i nonzero
    exact ⟨subdiv_eq clean ready normal nonzero small z,
      remain_eq clean ready normal nonzero small⟩

theorem subdiv_exact_negative :
    let mip := (mirsys 17).set (.caller 0) (Big.ofInt (-7))
    mip.subdiv (.caller 0) (-3) (.caller 1) = (mip.set (.caller 1) (Big.ofInt 2), -1) := by
  intro mip
  have clean : mip.Clean := (mirsys_clean 17).set (Big.ofInt_normal (-7)).clean
  have exact' := subdiv_exact clean rfl (x := .caller 0) (Big.ofInt_normal (-7)) (n := -3)
    (by decide) (.caller 1)
  rw [if_neg (by decide), show mip.value (.caller 0) = -7 from Big.ofInt_value _] at exact'
  exact exact'.1

end Mip

end Penglai.Miracl
