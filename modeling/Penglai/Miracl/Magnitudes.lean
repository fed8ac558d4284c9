import Penglai.Miracl.Instance

namespace Penglai.Miracl

/-! # Addition and subtraction of magnitudes

The inner routines of `mrarth0.c`. The result may replace an operand; the operands may
be one number. -/

/-! ## Columns -/

/-- A column of `mr_padd`: an unchanged sum leaves the carry as it is. -/
def addWords (x y carry : UInt32) : UInt32 × UInt32 :=
  let psum := x + y + carry
  (psum, if psum > x then 0 else if psum < x then 1 else carry)

def subWords (x y borrow : UInt32) : UInt32 × UInt32 :=
  let pdiff := x - y - borrow
  (pdiff, if pdiff < x then 0 else if pdiff > x then 1 else borrow)

theorem addWords_balance {x y carry : UInt32} (bit : carry.toNat ≤ 1) :
    (addWords x y carry).1.toNat + wordBase * (addWords x y carry).2.toNat =
      x.toNat + y.toNat + carry.toNat ∧ (addWords x y carry).2.toNat ≤ 1 := by
  have xBound := x.toNat_lt
  have yBound := y.toNat_lt
  have sum : (x + y + carry).toNat = (x.toNat + y.toNat + carry.toNat) % 2 ^ 32 := by
    rw [UInt32.toNat_add, UInt32.toNat_add, Nat.mod_add_mod]
  simp only [addWords, wordBase, gt_iff_lt, UInt32.lt_iff_toNat_lt]
  split
  · simp only [UInt32.toNat_zero]
    omega
  · split
    · simp only [UInt32.toNat_one]
      omega
    · omega

theorem subWords_balance {x y borrow : UInt32} (bit : borrow.toNat ≤ 1) :
    (subWords x y borrow).1.toNat + y.toNat + borrow.toNat =
      x.toNat + wordBase * (subWords x y borrow).2.toNat ∧ (subWords x y borrow).2.toNat ≤ 1 := by
  have xBound := x.toNat_lt
  have yBound := y.toNat_lt
  have difference : (x - y - borrow).toNat =
      (2 ^ 32 - borrow.toNat + (2 ^ 32 - y.toNat + x.toNat)) % 2 ^ 32 := by
    rw [UInt32.toNat_sub, UInt32.toNat_sub, Nat.add_mod_mod]
  simp only [subWords, wordBase, gt_iff_lt, UInt32.lt_iff_toNat_lt]
  split
  · simp only [UInt32.toNat_zero]
    omega
  · split
    · simp only [UInt32.toNat_one]
      omega
    · omega

theorem swept_addWords {x y initial : Nat → UInt32} {visit : Nat → Nat} {count : Nat}
    {state : (Nat → UInt32) × UInt32}
    (swept : Swept visit (fun i carry => addWords (x i) (y i) carry) initial 0 count state) :
    Big.below (fun i => state.1 (visit i)) count + wordBase ^ count * state.2.toNat =
      Big.below x count + Big.below y count ∧ state.2.toNat ≤ 1 := by
  have bit : ∀ i ≤ count,
      (carryInto (fun i carry => addWords (x i) (y i) carry) 0 i).toNat ≤ 1 :=
    carryInto_invariant _ _ (fun carry : UInt32 => carry.toNat ≤ 1) (by decide)
      fun i _ carry bit => (addWords_balance bit).2
  have balance := numeral_balance wordBase (fun i => (state.1 (visit i)).toNat)
    (fun i => (x i).toNat + (y i).toNat)
    (fun i => (carryInto (fun i carry => addWords (x i) (y i) carry) 0 i).toNat) (fun _ => 0)
    (fun i (inside : i < count) => by
      have column := (addWords_balance (x := x i) (y := y i) (bit i inside.le)).1
      have written := swept.written i inside
      simp only [written, carryInto_succ, digitOf]
      omega)
  rw [numeral_add] at balance
  rw [swept.carry]
  simp only [carryInto_zero, UInt32.toNat_zero] at balance
  exact ⟨by simpa [Big.below] using balance, bit count (Nat.le_refl _)⟩

theorem swept_subWords {x y initial : Nat → UInt32} {count : Nat}
    {state : (Nat → UInt32) × UInt32}
    (swept : Swept id (fun i borrow => subWords (x i) (y i) borrow) initial 0 count state) :
    Big.below state.1 count + Big.below y count =
      Big.below x count + wordBase ^ count * state.2.toNat ∧ state.2.toNat ≤ 1 := by
  have bit : ∀ i ≤ count,
      (carryInto (fun i borrow => subWords (x i) (y i) borrow) 0 i).toNat ≤ 1 :=
    carryInto_invariant _ _ (fun borrow : UInt32 => borrow.toNat ≤ 1) (by decide)
      fun i _ borrow bit => (subWords_balance bit).2
  have balance := numeral_balance wordBase (fun i => (state.1 i).toNat + (y i).toNat)
    (fun i => (x i).toNat) (fun _ => 0)
    (fun i => (carryInto (fun i borrow => subWords (x i) (y i) borrow) 0 i).toNat)
    (fun i (inside : i < count) => by
      have column := (subWords_balance (x := x i) (y := y i) (bit i inside.le)).1
      have written := swept.written i inside
      simp only [id_eq] at written
      simp only [written, carryInto_succ, digitOf]
      omega)
  rw [numeral_add] at balance
  rw [swept.carry]
  simp only [carryInto_zero, UInt32.toNat_zero] at balance
  exact ⟨by simpa [Big.below] using balance, bit count (Nat.le_refl _)⟩

namespace Mip

/-- What the pointer to the words of `x` reads while a loop writes the words `gz` of `z`. -/
def pointer (mip : Mip) (z : Slot) (gz : Nat → UInt32) (x : Slot) : Nat → UInt32 :=
  if x = z then gz else (mip.bigs x).w

theorem pointer_eq {mip : Mip} {z : Slot} {gz : Nat → UInt32} {i : Nat}
    (unwritten : gz i = (mip.bigs z).w i) (x : Slot) :
    mip.pointer z gz x i = (mip.bigs x).w i := by
  rw [pointer]
  split
  · rename_i same
    rw [unwritten, same]
  · rfl

theorem readsUnwritten_pointer (column : UInt32 → UInt32 → UInt32 → UInt32 × UInt32) (mip : Mip)
    (x y z : Slot) (count : Nat) :
    ReadsUnwritten id
      (fun gz i carry => column (mip.pointer z gz x i) (mip.pointer z gz y i) carry)
      (fun i carry => column ((mip.bigs x).w i) ((mip.bigs y).w i) carry)
      (mip.bigs z).w count := by
  intro i _ gz unwritten
  have here := unwritten i fun earlier before => Nat.ne_of_lt before
  funext carry
  simp only [pointer_eq here]

theorem carry_eq_zero (state : (Nat → UInt32) × UInt32)
    (stopped : decide (state.2 > 0) = false) : state.2 = 0 := by
  simp only [gt_iff_lt, decide_eq_false_iff_not, UInt32.not_lt] at stopped
  exact UInt32.le_antisymm stopped UInt32.zero_le

/-! ## `mr_padd` -/

def paddColumn (x y z : Slot) (mip : Mip) : Nat → (Nat → UInt32) × UInt32 → (Nat → UInt32) × UInt32 :=
  sweepStep id fun gz i carry =>
    addWords (mip.pointer z gz x i) (mip.pointer z gz y i) carry

/-- The columns of both operands, then those of the longer one while there is a carry. -/
def paddLoops (x y z : Slot) (lz la : Nat) (mip : Mip) : Nat × (Nat → UInt32) × UInt32 :=
  forWhile (fun state => decide (state.2 > 0)) (mip.paddColumn x y z) (lz - la) la
    (forRange 0 la (mip.paddColumn x y z) ((mip.bigs z).w, 0))

def paddColumns (x y z : Slot) (lz la : Nat) (mip : Mip) : Mip :=
  let len := if lz < mip.nib ∨ mip.check = false then lz + 1 else lz
  let (i, gz, carry) := mip.paddLoops x y z lz la
  if carry ≠ 0 ∧ mip.check ∧ i ≥ mip.nib then (mip.set z ⟨false, len, gz⟩).berror .overflow
  else
    let gz := if carry ≠ 0 then Function.update gz i carry else gz
    mip.set z ⟨false, if gz (len - 1) = 0 then len - 1 else len, gz⟩

def mrPadd (x y z : Slot) (mip : Mip) : Mip :=
  let lx := (mip.bigs x).len
  let ly := (mip.bigs y).len
  if ly > lx then
    if x ≠ z then paddColumns x y z ly lx (mip.copy y z) else paddColumns x y z ly ly mip
  else
    if y ≠ z then paddColumns x y z lx ly (mip.copy x z) else paddColumns x y z lx lx mip

/-- In the columns above the shorter operand, the longer one is already in place. -/
def Aligned (x y z : Nat → UInt32) (la : Nat) : Prop :=
  ∀ i, la ≤ i → x i = 0 ∧ z i = y i ∨ y i = 0 ∧ z i = x i

theorem addWords_idle {x y z : UInt32} (aligned : x = 0 ∧ z = y ∨ y = 0 ∧ z = x) :
    addWords x y 0 = (z, 0) := by
  have noCarry : ∀ word : UInt32, ¬word < 0 := fun word less => by
    simpa using UInt32.lt_iff_toNat_lt.mp less
  rcases aligned with ⟨rfl, rfl⟩ | ⟨rfl, rfl⟩
  · simp [addWords, noCarry]
  · simp [addWords]

theorem swept_padd {mip : Mip} {x y z : Slot} {lz la : Nat} (le : la ≤ lz)
    (aligned : Aligned (mip.bigs x).w (mip.bigs y).w (mip.bigs z).w la) :
    Swept id (fun i carry => addWords ((mip.bigs x).w i) ((mip.bigs y).w i) carry)
      (mip.bigs z).w 0 lz (mip.paddLoops x y z lz la).2 :=
  swept_forWhile (readsUnwritten_pointer addWords mip x y z) le carry_eq_zero
    fun i above => addWords_idle (aligned i above)

theorem paddFinish {gz : Nat → UInt32} {carry : UInt32} {lz len sum : Nat}
    (zeros : ∀ i, lz ≤ i → gz i = 0) (bit : carry.toNat ≤ 1)
    (total : Big.below gz lz + wordBase ^ lz * carry.toNat = sum)
    (low : ∀ i, lz = i + 1 → wordBase ^ i ≤ sum)
    (length : len = lz + 1 ∨ len = lz ∧ carry = 0) :
    let gz := if carry ≠ 0 then Function.update gz lz carry else gz
    (⟨false, if gz (len - 1) = 0 then len - 1 else len, gz⟩ : Big) = Big.ofNat sum := by
  by_cases noCarry : carry = 0
  · rw [noCarry] at total ⊢
    simp only [UInt32.toNat_zero, mul_zero, add_zero] at total
    simp only [ne_eq, not_true_eq_false, if_false]
    have count : Big.wordCount sum = lz := by
      have high : sum < wordBase ^ lz := total ▸ Big.below_lt gz lz
      cases size : lz with
      | zero =>
          rw [size, pow_zero] at high
          rw [Nat.lt_one_iff.mp high, Big.wordCount_zero]
      | succ i => exact Big.wordCount_eq (low i size) (size ▸ high)
    have stripped : (if gz (len - 1) = 0 then len - 1 else len) = lz := by
      rcases length with rfl | ⟨rfl, _⟩
      · rw [Nat.add_sub_cancel, if_pos (zeros lz (Nat.le_refl lz))]
      · cases size : len with
        | zero => simp
        | succ i =>
            rw [size] at total count
            have top : gz i ≠ 0 := by
              intro zero
              have small : sum < wordBase ^ i := by
                rw [← total, Big.below_succ, zero, UInt32.toNat_zero, zero_mul, add_zero]
                exact Big.below_lt gz i
              exact absurd (low i size) (Nat.not_le.mpr small)
            rw [Nat.add_sub_cancel, if_neg top]
    rw [stripped]
    exact Big.eq_ofNat_of_below rfl (fun i above => zeros i above) count.symm total
  · have one : carry.toNat = 1 := by
      have : carry.toNat ≠ 0 := fun zero => noCarry (UInt32.toNat_inj.mp zero)
      omega
    have len_eq : len = lz + 1 := by
      rcases length with grown | ⟨_, none⟩
      · exact grown
      · exact absurd none noCarry
    rw [one, mul_one] at total
    simp only [if_pos noCarry, len_eq, Nat.add_sub_cancel, Function.update_self, if_neg noCarry]
    have words : Big.below (Function.update gz lz carry) (lz + 1) = sum := by
      rw [Big.below_succ, Function.update_self, one, one_mul, ← total]
      congr 1
      exact Big.below_congr fun i inside => Function.update_of_ne (Nat.ne_of_lt inside) _ _
    have high : sum < wordBase ^ (lz + 1) := words ▸ Big.below_lt _ _
    apply Big.eq_ofNat_of_below rfl _ (Big.wordCount_eq (by omega) high).symm words
    intro i above
    exact (Function.update_of_ne (Nat.ne_of_gt above) _ _).trans
      (zeros i (Nat.le_of_succ_le above))

structure Summands (mip : Mip) (x y z : Slot) (lz la sum : Nat) : Prop where
  le : la ≤ lz
  aligned : Aligned (mip.bigs x).w (mip.bigs y).w (mip.bigs z).w la
  zeros : ∀ i, lz ≤ i → (mip.bigs z).w i = 0
  total : Big.below (mip.bigs x).w lz + Big.below (mip.bigs y).w lz = sum

structure Summed (lz sum : Nat) (run : Nat × (Nat → UInt32) × UInt32) : Prop where
  zeros : ∀ i, lz ≤ i → run.2.1 i = 0
  total : Big.below run.2.1 lz + wordBase ^ lz * run.2.2.toNat = sum
  bit : run.2.2.toNat ≤ 1
  index : run.2.2 ≠ 0 → run.1 = lz

theorem Summed.one {lz sum : Nat} {run : Nat × (Nat → UInt32) × UInt32}
    (summed : Summed lz sum run) (carried : run.2.2 ≠ 0) : run.2.2.toNat = 1 := by
  have nonzero : run.2.2.toNat ≠ 0 := fun zero => carried (UInt32.toNat_inj.mp zero)
  have := summed.bit
  omega

theorem Summands.summed {mip : Mip} {x y z : Slot} {lz la sum : Nat}
    (summands : Summands mip x y z lz la sum) : Summed lz sum (mip.paddLoops x y z lz la) := by
  have swept := swept_padd summands.le summands.aligned
  have sums := swept_addWords swept
  simp only [id_eq] at sums
  constructor
  · intro i above
    rw [swept.untouched i fun earlier before => Nat.ne_of_lt (Nat.lt_of_lt_of_le before above)]
    exact summands.zeros i above
  · rw [sums.1, summands.total]
  · exact sums.2
  · intro carried
    have positive : (mip.paddLoops x y z lz la).2.2 > 0 := UInt32.pos_iff_ne_zero.mpr carried
    rw [paddLoops, forWhile_index (by simpa [paddLoops] using positive),
      Nat.add_sub_cancel' summands.le]

theorem paddColumns_eq {mip : Mip} {x y z : Slot} {lz la sum : Nat}
    (summands : Summands mip x y z lz la sum) (low : ∀ i, lz = i + 1 → wordBase ^ i ≤ sum)
    (fits : mip.check = true → sum < wordBase ^ mip.nib) :
    paddColumns x y z lz la mip = mip.set z (Big.ofNat sum) := by
  have summed := summands.summed
  rw [paddColumns]
  generalize mip.paddLoops x y z lz la = run at summed ⊢
  rcases run with ⟨i, gz, carry⟩
  have room : carry ≠ 0 → mip.check = true → lz < mip.nib := by
    intro carried check
    have total := summed.total
    rw [summed.one carried, mul_one] at total
    exact (Nat.pow_lt_pow_iff_right Big.one_lt_wordBase).mp
      ((Nat.le_add_left _ _).trans_lt (total ▸ fits check))
  have noOverflow : ¬(carry ≠ 0 ∧ mip.check = true ∧ i ≥ mip.nib) := by
    rintro ⟨carried, check, full⟩
    have := room carried check
    have : i = lz := summed.index carried
    omega
  have length : (if lz < mip.nib ∨ mip.check = false then lz + 1 else lz) = lz + 1 ∨
      (if lz < mip.nib ∨ mip.check = false then lz + 1 else lz) = lz ∧ carry = 0 := by
    by_cases grows : lz < mip.nib ∨ mip.check = false
    · exact Or.inl (if_pos grows)
    · refine Or.inr ⟨if_neg grows, ?_⟩
      by_contra carried
      cases check : mip.check with
      | false => exact grows (Or.inr check)
      | true => exact grows (Or.inl (room carried check))
  have finish := paddFinish summed.zeros summed.bit summed.total low length
  simp only [if_neg noOverflow]
  by_cases noCarry : carry = 0
  · simpa [noCarry] using congrArg (mip.set z) finish
  · rw [show i = lz from summed.index noCarry]
    exact congrArg (mip.set z) finish

/-- With room for a carry, the words of the sum are right whatever the length says. -/
theorem paddColumns_words {mip : Mip} {x y z : Slot} {lz la sum : Nat}
    (summands : Summands mip x y z lz la sum) (room : lz < mip.nib ∨ mip.check = false) :
    ∃ len gz, paddColumns x y z lz la mip = mip.set z ⟨false, len, gz⟩ ∧
      (∀ i, lz < i → gz i = 0) ∧ Big.below gz (lz + 1) = sum := by
  have summed := summands.summed
  rw [paddColumns]
  generalize mip.paddLoops x y z lz la = run at summed ⊢
  rcases run with ⟨i, gz, carry⟩
  have zeros : ∀ i, lz ≤ i → gz i = 0 := summed.zeros
  have total : Big.below gz lz + wordBase ^ lz * carry.toNat = sum := summed.total
  have noOverflow : ¬(carry ≠ 0 ∧ mip.check = true ∧ i ≥ mip.nib) := by
    rintro ⟨carried, check, full⟩
    have : i = lz := summed.index carried
    rcases room with below | unchecked
    · omega
    · rw [unchecked] at check
      cases check
  simp only [if_neg noOverflow]
  by_cases noCarry : carry = 0
  · simp only [noCarry, ne_eq, not_true_eq_false, if_false]
    refine ⟨_, gz, rfl, fun j above => zeros j above.le, ?_⟩
    rw [noCarry, UInt32.toNat_zero, mul_zero, add_zero] at total
    rw [Big.below_succ, zeros lz (Nat.le_refl lz), UInt32.toNat_zero, zero_mul, add_zero, total]
  · have index : i = lz := summed.index noCarry
    simp only [ne_eq, noCarry, not_false_eq_true, if_true, index]
    refine ⟨_, Function.update gz lz carry, rfl, fun j above => ?_, ?_⟩
    · exact (Function.update_of_ne (Nat.ne_of_gt above) _ _).trans (zeros j above.le)
    · rw [Big.below_succ, Function.update_self, mul_comm, ← total]
      congr 1
      exact Big.below_congr fun j inside => Function.update_of_ne (Nat.ne_of_lt inside) _ _

theorem paddColumns_overflow {mip : Mip} {x y z : Slot} {lz la sum : Nat}
    (summands : Summands mip x y z lz la sum) (check : mip.check = true) (short : lz ≤ mip.nib)
    (tooLarge : wordBase ^ mip.nib ≤ sum) :
    (paddColumns x y z lz la mip).ernum = some .overflow := by
  have summed := summands.summed
  rw [paddColumns]
  generalize mip.paddLoops x y z lz la = run at summed ⊢
  rcases run with ⟨i, gz, carry⟩
  have total : Big.below gz lz + wordBase ^ lz * carry.toNat = sum := summed.total
  have low := Big.below_lt gz lz
  have powers : wordBase ^ lz ≤ wordBase ^ mip.nib := Nat.pow_le_pow_right Big.wordBase_pos short
  have carried : carry ≠ 0 := by
    intro zero
    rw [zero, UInt32.toNat_zero, mul_zero] at total
    omega
  have one : carry.toNat = 1 := summed.one carried
  have full : mip.nib ≤ lz := by
    have high : sum < wordBase ^ (lz + 1) := by
      have : wordBase ^ lz * 2 ≤ wordBase ^ lz * wordBase := Nat.mul_le_mul_left _ (by decide)
      rw [one] at total
      rw [pow_succ]
      omega
    have := (Nat.pow_lt_pow_iff_right Big.one_lt_wordBase).mp (tooLarge.trans_lt high)
    omega
  have atEnd : i = lz := summed.index carried
  simp only [if_pos (show carry ≠ 0 ∧ mip.check = true ∧ i ≥ mip.nib from
    ⟨carried, check, atEnd ▸ full⟩)]
  rfl

theorem mrPadd_branches {mip : Mip} (clean : mip.Clean) (x y z : Slot) :
    ∃ (la : Nat) (long : Big),
      mip.mrPadd x y z =
        paddColumns x y z (max (mip.bigs x).len (mip.bigs y).len) la (mip.set z long) ∧
      Summands (mip.set z long) x y z (max (mip.bigs x).len (mip.bigs y).len) la
        ((mip.bigs x).magnitude + (mip.bigs y).magnitude) := by
  rw [mrPadd]
  by_cases longer : (mip.bigs y).len > (mip.bigs x).len
  · have total := congrArg₂ (· + ·) ((clean x).below_eq longer.le) ((clean y).below_eq le_rfl)
    simp only [if_pos longer, max_eq_right longer.le]
    by_cases apart : x = z
    · subst apart
      refine ⟨_, mip.bigs x, by rw [set_bigs, if_neg (not_not.mpr rfl)], ?_⟩
      rw [set_bigs]
      exact ⟨le_rfl, fun i above => Or.inr ⟨clean y i above, rfl⟩,
        fun i above => clean x i (by omega), total⟩
    · refine ⟨_, mip.bigs y, by rw [if_pos apart, copy_eq y z clean], ?_⟩
      have yKept : (mip.set z (mip.bigs y)).bigs y = mip.bigs y := by
        rw [bigs_set]
        split <;> rfl
      constructor
      · exact longer.le
      · rw [bigs_set_of_ne mip _ apart, yKept, bigs_set_self]
        exact fun i above => Or.inl ⟨clean x i above, rfl⟩
      · rw [bigs_set_self]
        exact clean y
      · rw [bigs_set_of_ne mip _ apart, yKept]
        exact total
  · have total := congrArg₂ (· + ·) ((clean x).below_eq le_rfl)
      ((clean y).below_eq (Nat.not_lt.mp longer))
    simp only [if_neg longer, max_eq_left (Nat.not_lt.mp longer)]
    by_cases apart : y = z
    · subst apart
      refine ⟨_, mip.bigs y, by rw [set_bigs, if_neg (not_not.mpr rfl)], ?_⟩
      rw [set_bigs]
      exact ⟨le_rfl, fun i above => Or.inl ⟨clean x i above, rfl⟩,
        fun i above => clean y i (by omega), total⟩
    · refine ⟨_, mip.bigs x, by rw [if_pos apart, copy_eq x z clean], ?_⟩
      have xKept : (mip.set z (mip.bigs x)).bigs x = mip.bigs x := by
        rw [bigs_set]
        split <;> rfl
      constructor
      · exact Nat.not_lt.mp longer
      · rw [bigs_set_of_ne mip _ apart, xKept, bigs_set_self]
        exact fun i above => Or.inr ⟨clean y i above, rfl⟩
      · rw [bigs_set_self]
        exact clean x
      · rw [bigs_set_of_ne mip _ apart, xKept]
        exact total

theorem pow_le_sum {x y : Big} (xNormal : x.Normal) (yNormal : y.Normal) {i : Nat}
    (length : max x.len y.len = i + 1) : wordBase ^ i ≤ x.magnitude + y.magnitude := by
  rcases max_choice x.len y.len with longer | longer
  · exact (xNormal.pow_le (longer.symm.trans length)).trans (Nat.le_add_right _ _)
  · exact (yNormal.pow_le (longer.symm.trans length)).trans (Nat.le_add_left _ _)

/-- `mr_padd` adds magnitudes, whichever of the three numbers are the same. -/
theorem mrPadd_eq {mip : Mip} (clean : mip.Clean) {x y : Slot} (xNormal : (mip.bigs x).Normal)
    (yNormal : (mip.bigs y).Normal) (z : Slot)
    (fits : mip.check = true →
      (mip.bigs x).magnitude + (mip.bigs y).magnitude < wordBase ^ mip.nib) :
    mip.mrPadd x y z = mip.set z (Big.ofNat ((mip.bigs x).magnitude + (mip.bigs y).magnitude)) := by
  rcases mrPadd_branches clean x y z with ⟨la, long, branch, summands⟩
  rw [branch, paddColumns_eq summands (fun i length => pow_le_sum xNormal yNormal length) fits,
    set_set]

theorem mrPadd_overflow {mip : Mip} (clean : mip.Clean) {x y : Slot} (z : Slot)
    (check : mip.check = true) (xShort : (mip.bigs x).len ≤ mip.nib)
    (yShort : (mip.bigs y).len ≤ mip.nib)
    (tooLarge : wordBase ^ mip.nib ≤ (mip.bigs x).magnitude + (mip.bigs y).magnitude) :
    (mip.mrPadd x y z).ernum = some .overflow := by
  rcases mrPadd_branches clean x y z with ⟨la, long, branch, summands⟩
  rw [branch]
  exact paddColumns_overflow summands check (max_le xShort yShort) tooLarge

theorem mrPadd_double {mip : Mip} (clean : mip.Clean) (x : Slot)
    (room : (mip.bigs x).len < mip.nib ∨ mip.check = false) :
    ∃ len gz, mip.mrPadd x x x = mip.set x ⟨false, len, gz⟩ ∧
      (∀ i, (mip.bigs x).len < i → gz i = 0) ∧
      Big.below gz ((mip.bigs x).len + 1) = 2 * (mip.bigs x).magnitude := by
  rcases mrPadd_branches clean x x x with ⟨la, long, branch, summands⟩
  rw [max_self] at branch summands
  rcases paddColumns_words summands room with ⟨len, gz, words, zeros, total⟩
  exact ⟨len, gz, by rw [branch, words, set_set], zeros, by rw [total, two_mul]⟩

/-! ## `mr_psub` -/

def psubColumn (x y z : Slot) (mip : Mip) : Nat → (Nat → UInt32) × UInt32 → (Nat → UInt32) × UInt32 :=
  sweepStep id fun gz i borrow =>
    subWords (mip.pointer z gz x i) (mip.pointer z gz y i) borrow

/-- The columns of the second operand, then further ones while there is a borrow, up to
the column `lx` where the loop gives up. -/
def psubLoops (x y z : Slot) (lx ly : Nat) (mip : Mip) : Nat × (Nat → UInt32) × UInt32 :=
  forWhile (fun state => decide (state.2 > 0)) (mip.psubColumn x y z) (lx + 1 - ly) ly
    (forRange 0 ly (mip.psubColumn x y z) ((mip.bigs z).w, 0))

def mrPsub (x y z : Slot) (mip : Mip) : Mip :=
  let lx := (mip.bigs x).len
  let ly := (mip.bigs y).len
  if ly > lx then mip.berror .negResult
  else
    let ly := if y ≠ z then ly else lx
    let mip := if y ≠ z then mip.copy x z else mip
    let (i, gz, borrow) := mip.psubLoops x y z lx ly
    if borrow > 0 ∧ i > lx then (mip.set z ⟨false, lx, gz⟩).berror .negResult
    else mip.set z (Big.lzero ⟨false, lx, gz⟩)

structure Minuend (mip : Mip) (x y z : Slot) (lx ly minuend subtrahend : Nat) : Prop where
  le : ly ≤ lx + 1
  aligned : ∀ i, ly ≤ i → (mip.bigs y).w i = 0 ∧ (mip.bigs z).w i = (mip.bigs x).w i
  zeros : ∀ i, lx ≤ i → (mip.bigs z).w i = 0
  whole : Big.below (mip.bigs x).w (lx + 1) = minuend
  taken : Big.below (mip.bigs y).w (lx + 1) = subtrahend

structure Subtracted (lx minuend subtrahend : Nat) (run : Nat × (Nat → UInt32) × UInt32) :
    Prop where
  zeros : ∀ i, lx < i → run.2.1 i = 0
  total : Big.below run.2.1 (lx + 1) + subtrahend =
    minuend + wordBase ^ (lx + 1) * run.2.2.toNat
  bit : run.2.2.toNat ≤ 1
  index : run.2.2 > 0 → run.1 = lx + 1

theorem subWords_idle {x y z : UInt32} (aligned : y = 0 ∧ z = x) : subWords x y 0 = (z, 0) := by
  rcases aligned with ⟨rfl, rfl⟩
  simp [subWords]

theorem Minuend.subtracted {mip : Mip} {x y z : Slot} {lx ly minuend subtrahend : Nat}
    (operands : Minuend mip x y z lx ly minuend subtrahend) :
    Subtracted lx minuend subtrahend (mip.psubLoops x y z lx ly) := by
  have swept : Swept id (fun i borrow => subWords ((mip.bigs x).w i) ((mip.bigs y).w i) borrow)
      (mip.bigs z).w 0 (lx + 1) (mip.psubLoops x y z lx ly).2 :=
    swept_forWhile (readsUnwritten_pointer subWords mip x y z) operands.le carry_eq_zero
      fun i above => subWords_idle (operands.aligned i above)
  have differences := swept_subWords swept
  constructor
  · intro i above
    rw [swept.untouched i fun earlier before => Nat.ne_of_lt (Nat.lt_of_lt_of_le before above)]
    exact operands.zeros i above.le
  · rw [← operands.whole, ← operands.taken]
    exact differences.1
  · exact differences.2
  · intro borrowed
    rw [psubLoops, forWhile_index (by simpa [psubLoops] using borrowed),
      Nat.add_sub_cancel' operands.le]

theorem mrPsub_operands {mip : Mip} (clean : mip.Clean) {x y : Slot} (z : Slot)
    (shorter : (mip.bigs y).len ≤ (mip.bigs x).len) :
    Minuend (if y ≠ z then mip.copy x z else mip) x y z (mip.bigs x).len
      (if y ≠ z then (mip.bigs y).len else (mip.bigs x).len)
      (mip.bigs x).magnitude (mip.bigs y).magnitude := by
  have minuend := (clean x).below_eq (Nat.le_succ (mip.bigs x).len)
  have subtrahend := (clean y).below_eq (shorter.trans (Nat.le_succ _))
  by_cases apart : y = z
  · subst apart
    simp only [ne_eq, not_true_eq_false, if_false]
    constructor
    · exact Nat.le_succ _
    · intro i above
      rw [clean y i (shorter.trans above), clean x i above]
      exact ⟨rfl, rfl⟩
    · exact fun i above => clean y i (shorter.trans above)
    · exact minuend
    · exact subtrahend
  · have xKept : (mip.set z (mip.bigs x)).bigs x = mip.bigs x := by
      rw [bigs_set]
      split <;> rfl
    rw [if_pos apart, if_pos apart, copy_eq x z clean]
    constructor
    · exact shorter.trans (Nat.le_succ _)
    · intro i above
      rw [bigs_set_of_ne mip _ apart, bigs_set_self, xKept]
      exact ⟨clean y i above, rfl⟩
    · rw [bigs_set_self]
      exact clean x
    · rw [xKept]
      exact minuend
    · rw [bigs_set_of_ne mip _ apart]
      exact subtrahend

theorem psub_set {mip : Mip} (clean : mip.Clean) (x y z : Slot) (big : Big) :
    (if y ≠ z then mip.copy x z else mip).set z big = mip.set z big := by
  split
  · rw [copy_eq x z clean, set_set]
  · rfl

/-- `mr_psub` subtracts magnitudes, whichever of the three numbers are the same. -/
theorem mrPsub_eq {mip : Mip} (clean : mip.Clean) {x y : Slot} (yNormal : (mip.bigs y).Normal)
    (z : Slot) (le : (mip.bigs y).magnitude ≤ (mip.bigs x).magnitude) :
    mip.mrPsub x y z = mip.set z (Big.ofNat ((mip.bigs x).magnitude - (mip.bigs y).magnitude)) := by
  have shorter : (mip.bigs y).len ≤ (mip.bigs x).len :=
    yNormal.len_le (le.trans_lt (mip.bigs x).magnitude_lt)
  have subtracted := (mrPsub_operands clean z shorter).subtracted
  simp only [mrPsub, if_neg (Nat.not_lt.mpr shorter)]
  generalize psubLoops x y z (mip.bigs x).len (if y ≠ z then (mip.bigs y).len else (mip.bigs x).len)
    (if y ≠ z then mip.copy x z else mip) = run at subtracted ⊢
  rcases run with ⟨i, gz, borrow⟩
  have low := Big.below_lt gz ((mip.bigs x).len + 1)
  have total : Big.below gz ((mip.bigs x).len + 1) + (mip.bigs y).magnitude =
    (mip.bigs x).magnitude + wordBase ^ ((mip.bigs x).len + 1) * borrow.toNat := subtracted.total
  have none : borrow.toNat = 0 := by
    have bit : borrow.toNat ≤ 1 := subtracted.bit
    rcases Nat.le_one_iff_eq_zero_or_eq_one.mp bit with zero | one
    · exact zero
    · rw [one] at total
      omega
  have settled : ¬(borrow > 0 ∧ i > (mip.bigs x).len) := by
    intro ⟨borrowed, _⟩
    have := UInt32.lt_iff_toNat_lt.mp borrowed
    rw [none, UInt32.toNat_zero] at this
    omega
  rw [none, mul_zero, add_zero] at total
  have fits := (mip.bigs x).magnitude_lt
  have top : gz (mip.bigs x).len = 0 := by
    apply UInt32.toNat_inj.mp
    rw [Big.below_succ] at total
    by_contra nonzero
    have : 1 * wordBase ^ (mip.bigs x).len ≤
        (gz (mip.bigs x).len).toNat * wordBase ^ (mip.bigs x).len :=
      Nat.mul_le_mul_right _ (Nat.pos_of_ne_zero nonzero)
    omega
  have bigClean : (⟨false, (mip.bigs x).len, gz⟩ : Big).Clean := by
    intro j above
    rcases Nat.eq_or_lt_of_le above with rfl | beyond
    · exact top
    · exact subtracted.zeros j beyond
  have value : (⟨false, (mip.bigs x).len, gz⟩ : Big).value =
      ((mip.bigs x).magnitude - (mip.bigs y).magnitude : Nat) := by
    rw [Big.below_succ, top, UInt32.toNat_zero, zero_mul, add_zero] at total
    simp only [Big.value, Bool.false_eq_true, if_false, Nat.cast_inj]
    exact Nat.eq_sub_of_add_eq total
  simp only [if_neg settled, Big.lzero_eq bigClean, value, Big.ofInt_natCast]
  exact psub_set clean x y z _

theorem mrPsub_negative {mip : Mip} (clean : mip.Clean) {x y : Slot} (z : Slot)
    (less : (mip.bigs x).magnitude < (mip.bigs y).magnitude) :
    (mip.mrPsub x y z).ernum = some .negResult := by
  by_cases longer : (mip.bigs y).len > (mip.bigs x).len
  · rw [mrPsub, if_pos longer]
    rfl
  · have subtracted := (mrPsub_operands clean z (Nat.not_lt.mp longer)).subtracted
    simp only [mrPsub, if_neg longer]
    generalize psubLoops x y z (mip.bigs x).len
      (if y ≠ z then (mip.bigs y).len else (mip.bigs x).len)
      (if y ≠ z then mip.copy x z else mip) = run at subtracted ⊢
    rcases run with ⟨i, gz, borrow⟩
    have total : Big.below gz ((mip.bigs x).len + 1) + (mip.bigs y).magnitude =
      (mip.bigs x).magnitude + wordBase ^ ((mip.bigs x).len + 1) * borrow.toNat := subtracted.total
    have borrowed : borrow > 0 := by
      apply UInt32.lt_iff_toNat_lt.mpr
      rw [UInt32.toNat_zero, Nat.pos_iff_ne_zero]
      intro zero
      rw [zero] at total
      omega
    have index : i = (mip.bigs x).len + 1 := subtracted.index borrowed
    rw [if_pos (show borrow > 0 ∧ i > (mip.bigs x).len from ⟨borrowed, by omega⟩)]
    rfl

end Mip

end Penglai.Miracl
