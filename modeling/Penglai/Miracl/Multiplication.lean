import Penglai.Miracl.Magnitudes
import Penglai.Miracl.Rows

namespace Penglai.Miracl

/-! # Multiplication

`multiply` of `mrarth2.c`: a long multiplication, and for the square of a number of
more than five words a multiplication above the diagonal, doubled, to which the
squares on the diagonal are added. -/

/-! ## Long multiplication -/

def longRow (x y : Nat → UInt32) (yl i : Nat) (w0g : Nat → UInt32) : Nat → UInt32 :=
  let (w0g, carry) := mulRow (x i) y i yl w0g
  Function.update w0g (yl + i) carry

structure LongProduct (x y : Nat → UInt32) (yl i : Nat) (w0g : Nat → UInt32) : Prop where
  zeros : ∀ j, yl + i ≤ j → w0g j = 0
  total : Big.below w0g (yl + i) = Big.below x i * Big.below y yl

theorem longProduct_step {x y : Nat → UInt32} {yl i : Nat} {w0g : Nat → UInt32}
    (before : LongProduct x y yl i w0g) : LongProduct x y yl (i + 1) (longRow x y yl i w0g) := by
  have added := rowAdded (x i) y i yl w0g
  have stored := added.stored
  constructor
  · intro j above
    have beyond : j ≠ yl + i := by omega
    exact (Function.update_of_ne beyond _ _).trans
      ((added.behind j (by omega)).trans (before.zeros j (by omega)))
  · rw [Nat.add_comm i yl, before.total] at stored
    rw [← Nat.add_assoc, longRow, stored, Big.below_succ]
    ring

theorem longProduct (x y : Nat → UInt32) (xl yl : Nat) {w0g : Nat → UInt32}
    (empty : ∀ j, w0g j = 0) :
    LongProduct x y yl xl (forRange 0 xl (longRow x y yl) w0g) := by
  apply forRange_invariant (LongProduct x y yl)
  · refine ⟨fun j _ => empty j, ?_⟩
    rw [Big.below_zero, zero_mul]
    exact numeral_eq_zero fun j _ => by rw [empty j]; rfl
  · intro i _ state before
    rw [Nat.zero_add]
    exact longProduct_step before

/-! ## Squaring -/

/-- One row of the squaring: only what is above the diagonal. -/
def squareRow (x : Nat → UInt32) (xl i : Nat) (w0g : Nat → UInt32) : Nat → UInt32 :=
  let (w0g, carry) := mulRow (x i) (fun j => x (i + 1 + j)) (i + (i + 1)) (xl - (i + 1)) w0g
  Function.update w0g (xl + i) carry

def upper (x : Nat → UInt32) (xl i : Nat) : Nat :=
  wordBase ^ i * Big.below (fun j => x (i + j)) (xl - i)

theorem upper_zero (x : Nat → UInt32) (xl : Nat) : upper x xl 0 = Big.below x xl := by
  rw [upper, pow_zero, one_mul, Nat.sub_zero]
  exact Big.below_congr fun j _ => by rw [Nat.zero_add]

theorem upper_self (x : Nat → UInt32) (xl : Nat) : upper x xl xl = 0 := by
  rw [upper, Nat.sub_self, Big.below_zero, mul_zero]

theorem upper_succ (x : Nat → UInt32) {xl i : Nat} (inside : i < xl) :
    upper x xl i = (x i).toNat * wordBase ^ i + upper x xl (i + 1) := by
  have split := Big.below_append (fun j => x (i + j)) 1 (xl - (i + 1))
  have words : Big.below (fun j => x (i + 1 + j)) (xl - (i + 1)) =
      Big.below (fun j => x (i + (1 + j))) (xl - (i + 1)) :=
    Big.below_congr fun j _ => by rw [Nat.add_assoc]
  rw [upper, upper, words, show xl - i = 1 + (xl - (i + 1)) by omega, split, Big.below_succ,
    Big.below_zero, Nat.add_zero]
  ring

def aboveDiagonal (x : Nat → UInt32) (xl i : Nat) : Nat :=
  ∑ k ∈ Finset.range i, (x k).toNat * wordBase ^ k * upper x xl (k + 1)

def diagonal (x : Nat → UInt32) (i : Nat) : Nat :=
  ∑ k ∈ Finset.range i, ((x k).toNat * wordBase ^ k) ^ 2

/-- Twice what is above the diagonal and the diagonal make up the square, less that of
the words not yet reached. -/
theorem square_split (x : Nat → UInt32) {xl : Nat} : ∀ i ≤ xl,
    2 * aboveDiagonal x xl i + diagonal x i + upper x xl i ^ 2 = Big.below x xl ^ 2
  | 0, _ => by simp [aboveDiagonal, diagonal, upper_zero]
  | i + 1, bound => by
      have before := square_split x i (Nat.le_of_succ_le bound)
      rw [upper_succ x (show i < xl by omega)] at before
      rw [← before, aboveDiagonal, diagonal, Finset.sum_range_succ, Finset.sum_range_succ,
        ← aboveDiagonal, ← diagonal]
      ring

structure SquareRows (x : Nat → UInt32) (xl i : Nat) (w0g : Nat → UInt32) : Prop where
  zeros : ∀ j, xl + i ≤ j → w0g j = 0
  total : Big.below w0g (xl + i) = aboveDiagonal x xl i

theorem squareRows_step {x : Nat → UInt32} {xl i : Nat} (inside : i < xl) {w0g : Nat → UInt32}
    (before : SquareRows x xl i w0g) : SquareRows x xl (i + 1) (squareRow x xl i w0g) := by
  have added := rowAdded (x i) (fun j => x (i + 1 + j)) (i + (i + 1)) (xl - (i + 1)) w0g
  have stored := added.stored
  rw [show i + (i + 1) + (xl - (i + 1)) = xl + i by omega] at stored
  constructor
  · intro j above
    have beyond : j ≠ xl + i := by omega
    exact (Function.update_of_ne beyond _ _).trans
      ((added.behind j (by omega)).trans (before.zeros j (by omega)))
  · rw [← Nat.add_assoc, squareRow, stored, before.total, aboveDiagonal, aboveDiagonal,
      Finset.sum_range_succ, upper, pow_add]
    ring

theorem squareRows (x : Nat → UInt32) (xl : Nat) {w0g : Nat → UInt32} (empty : ∀ j, w0g j = 0) :
    SquareRows x xl (xl - 1) (forRange 0 (xl - 1) (squareRow x xl) w0g) := by
  apply forRange_invariant (SquareRows x xl)
  · refine ⟨fun j _ => empty j, ?_⟩
    rw [aboveDiagonal, Finset.sum_range_zero]
    exact numeral_eq_zero fun j _ => by rw [empty j]; rfl
  · intro i inside state before
    rw [Nat.zero_add]
    exact squareRows_step (by omega) before

def addSquare (x : Nat → UInt32) (i : Nat) (state : (Nat → UInt32) × UInt32) :
    (Nat → UInt32) × UInt32 :=
  let ti := i + i
  let (bottom, top) := mulWords (x i) (x i) state.2 (state.1 ti)
  let w0g := Function.update state.1 ti bottom
  let high := w0g (ti + 1) + top
  (Function.update w0g (ti + 1) high, if high < top then 1 else 0)

structure SquaresAdded (x initial : Nat → UInt32) (i : Nat) (state : (Nat → UInt32) × UInt32) :
    Prop where
  behind : ∀ j, i + i ≤ j → state.1 j = initial j
  total : Big.below state.1 (i + i) + wordBase ^ (i + i) * state.2.toNat =
    Big.below initial (i + i) + diagonal x i

theorem addWord_balance (low high : UInt32) :
    (low + high).toNat + wordBase * (if low + high < high then (1 : UInt32) else 0).toNat =
      low.toNat + high.toNat := by
  have lowBound := low.toNat_lt
  have highBound := high.toNat_lt
  have sum := UInt32.toNat_add low high
  simp only [UInt32.lt_iff_toNat_lt, wordBase]
  split
  · rw [UInt32.toNat_one]
    omega
  · rw [UInt32.toNat_zero]
    omega

theorem squaresAdded_step {x initial : Nat → UInt32} {i : Nat}
    {state : (Nat → UInt32) × UInt32} (before : SquaresAdded x initial i state) :
    SquaresAdded x initial (i + 1) (addSquare x i state) := by
  have product := mulWords_balance (x i) (x i) state.2 (state.1 (i + i))
  have bottom := before.behind (i + i) (Nat.le_refl _)
  have above := before.behind (i + i + 1) (Nat.le_succ _)
  have ne : i + i ≠ i + i + 1 := by omega
  constructor
  · intro j behind
    simp only [addSquare]
    rw [Function.update_of_ne (by omega), Function.update_of_ne (by omega)]
    exact before.behind j (by omega)
  · have high := addWord_balance (initial (i + i + 1))
      (mulWords (x i) (x i) state.2 (state.1 (i + i))).2
    have words : Big.below (addSquare x i state).1 (i + i) = Big.below state.1 (i + i) :=
      Big.below_congr fun j inside => by
        simp only [addSquare]
        rw [Function.update_of_ne (by omega), Function.update_of_ne (by omega)]
    rw [show i + 1 + (i + 1) = i + i + 1 + 1 by omega, Big.below_succ, Big.below_succ,
      Big.below_succ initial, Big.below_succ initial, words, diagonal, Finset.sum_range_succ,
      ← diagonal]
    have square : ((x i).toNat * wordBase ^ i) ^ 2 =
        wordBase ^ (i + i) * ((x i).toNat * (x i).toNat) := by
      rw [pow_add]
      ring
    have total := before.total
    rw [square]
    simp only [addSquare, Function.update_self, Function.update_of_ne ne,
      Function.update_of_ne ne.symm, above] at high ⊢
    rw [← bottom]
    have scaled := congrArg (wordBase ^ (i + i) * ·) product
    have scaledHigh := congrArg (wordBase ^ (i + i + 1) * ·) high
    simp only [mul_add, pow_succ] at scaled scaledHigh ⊢
    linarith

theorem squaresAdded (x initial : Nat → UInt32) (xl : Nat) :
    SquaresAdded x initial xl (forRange 0 xl (addSquare x) (initial, 0)) := by
  apply forRange_invariant (SquaresAdded x initial)
  · refine ⟨fun _ _ => rfl, ?_⟩
    simp [diagonal]
  · intro i _ state before
    rw [Nat.zero_add]
    exact squaresAdded_step before

/-! ## `multiply` -/

/-- More words than this, and squaring is done the fast way. -/
def sqrFasterThreshold : Nat := 5

namespace Mip

def squareWords (x w0 : Slot) (xl : Nat) (mip : Mip) : Mip :=
  let xg := (mip.bigs x).w
  let w0g := forRange 0 (xl - 1) (squareRow xg xl) (mip.bigs w0).w
  let mip := (mip.set w0 ⟨false, xl + xl - 1, w0g⟩).mrPadd w0 w0 w0
  mip.set w0 { mip.bigs w0 with w := (forRange 0 xl (addSquare xg) ((mip.bigs w0).w, 0)).1 }

def longWords (x y w0 : Slot) (xl yl : Nat) (mip : Mip) : Mip :=
  let w0g := forRange 0 xl (longRow (mip.bigs x).w (mip.bigs y).w yl) (mip.bigs w0).w
  mip.set w0 { mip.bigs w0 with w := w0g }

def productSlot (x y z : Slot) : Slot :=
  if x ≠ .w 5 ∧ y ≠ .w 5 ∧ z = .w 5 then .w 5 else .w 0

def multiply (x y z : Slot) (mip : Mip) : Mip :=
  if mip.ernum.isSome then mip
  else if (mip.bigs y).len = 0 ∨ (mip.bigs x).len = 0 then mip.zero z
  else
    let w0 := productSlot x y z
    let sz := (mip.bigs x).minus != (mip.bigs y).minus
    let xl := (mip.bigs x).len
    let yl := (mip.bigs y).len
    let mip := mip.zero w0
    if mip.check ∧ xl + yl > mip.nib then mip.berror .overflow
    else
      let mip :=
        if x = y ∧ xl > sqrFasterThreshold then mip.squareWords x w0 xl
        else mip.longWords x y w0 xl yl
      ((mip.set w0 ⟨sz, xl + yl, (mip.bigs w0).w⟩).mrLzero w0).copy w0 z

structure ProductWords (mip mip' : Mip) (w0 : Slot) (count product : Nat) : Prop where
  frame : ∃ big, mip' = mip.set w0 big
  zeros : ∀ j, count ≤ j → (mip'.bigs w0).w j = 0
  total : Big.below (mip'.bigs w0).w count = product

theorem longWords_spec {mip : Mip} {x y w0 : Slot} (empty : ∀ j, (mip.bigs w0).w j = 0) :
    ProductWords mip (mip.longWords x y w0 (mip.bigs x).len (mip.bigs y).len) w0
      ((mip.bigs x).len + (mip.bigs y).len)
      ((mip.bigs x).magnitude * (mip.bigs y).magnitude) := by
  have product := longProduct (mip.bigs x).w (mip.bigs y).w (mip.bigs x).len (mip.bigs y).len empty
  rw [Nat.add_comm]
  constructor
  · exact ⟨_, rfl⟩
  · rw [longWords, bigs_set_self]
    exact product.zeros
  · rw [longWords, bigs_set_self]
    exact product.total

theorem squareWords_spec {mip : Mip} (clean : mip.Clean) {x w0 : Slot}
    (empty : ∀ j, (mip.bigs w0).w j = 0) (some : 0 < (mip.bigs x).len)
    (room : (mip.bigs x).len + (mip.bigs x).len ≤ mip.nib ∨ mip.check = false) :
    ProductWords mip (mip.squareWords x w0 (mip.bigs x).len) w0
      ((mip.bigs x).len + (mip.bigs x).len)
      ((mip.bigs x).magnitude * (mip.bigs x).magnitude) := by
  have rows := squareRows (mip.bigs x).w (mip.bigs x).len empty
  have split := square_split (mip.bigs x).w (mip.bigs x).len (Nat.le_refl _)
  have below := (mip.bigs x).magnitude_lt
  rw [← Big.magnitude] at split
  rw [squareWords]
  generalize (mip.bigs x).w = xg, (mip.bigs x).len = xl, (mip.bigs x).magnitude = X at *
  generalize forRange 0 (xl - 1) (squareRow xg xl) (mip.bigs w0).w = w0g at rows ⊢
  have halves : xl + (xl - 1) = xl + xl - 1 := by omega
  have whole : xl + xl - 1 + 1 = xl + xl := by omega
  have rowsClean : (⟨false, xl + xl - 1, w0g⟩ : Big).Clean :=
    fun j above => rows.zeros j (halves ▸ above)
  have rowsTotal : (⟨false, xl + xl - 1, w0g⟩ : Big).magnitude = aboveDiagonal xg xl xl := by
    rw [Big.magnitude, ← halves, rows.total, show xl = xl - 1 + 1 by omega, Nat.add_sub_cancel,
      aboveDiagonal, aboveDiagonal, Finset.sum_range_succ, upper_self, mul_zero, add_zero]
  rcases mrPadd_double (@Clean.set _ clean w0 _ rowsClean) w0 (by
    rw [bigs_set_self, set_nib, set_check]
    rcases room with roomy | unchecked
    · exact Or.inl (by simp only; omega)
    · exact Or.inr unchecked) with ⟨len, gz, doubled, zeros, total⟩
  rw [bigs_set_self, rowsTotal] at total
  rw [bigs_set_self] at zeros
  simp only [whole] at zeros total
  rw [doubled]
  simp only [set_set, bigs_set_self]
  have squares := squaresAdded xg gz xl
  generalize forRange 0 xl (addSquare xg) (gz, 0) = final at squares ⊢
  have sum := squares.total
  rw [total, ← add_zero (2 * _ + _), ← Nat.zero_pow (n := 2) (by omega), ← upper_self xg xl,
    split] at sum
  have noCarry : final.2.toNat = 0 := by
    by_contra some
    have : wordBase ^ (xl + xl) * 1 ≤ wordBase ^ (xl + xl) * final.2.toNat :=
      Nat.mul_le_mul_left _ (Nat.pos_of_ne_zero some)
    have : X ^ 2 < wordBase ^ (xl + xl) := by
      rw [pow_two, pow_add]
      exact Nat.mul_lt_mul'' below below
    omega
  constructor
  · exact ⟨_, rfl⟩
  · intro j above
    rw [bigs_set_self]
    exact (squares.behind j above).trans (zeros j (by omega))
  · rw [bigs_set_self]
    rw [noCarry, mul_zero, add_zero, pow_two] at sum
    exact sum

theorem productWords {mip : Mip} (clean : mip.Clean) {x y w0 : Slot}
    (empty : ∀ j, (mip.bigs w0).w j = 0) (xSome : (mip.bigs x).len ≠ 0)
    (room : (mip.bigs x).len + (mip.bigs y).len ≤ mip.nib ∨ mip.check = false) :
    ProductWords mip
      (if x = y ∧ (mip.bigs x).len > sqrFasterThreshold then
        mip.squareWords x w0 (mip.bigs x).len
      else mip.longWords x y w0 (mip.bigs x).len (mip.bigs y).len)
      w0 ((mip.bigs x).len + (mip.bigs y).len)
      ((mip.bigs x).magnitude * (mip.bigs y).magnitude) := by
  split
  · rename_i square
    rw [← square.1] at room ⊢
    exact squareWords_spec clean empty (Nat.pos_of_ne_zero xSome) room
  · exact longWords_spec empty

theorem value_mul (x y : Big) : (if (x.minus != y.minus) = true then
    -((x.magnitude * y.magnitude : Nat) : Int) else (x.magnitude * y.magnitude : Nat)) =
      x.value * y.value := by
  rw [Big.value, Big.value]
  push_cast
  cases x.minus with
  | false =>
      cases y.minus with
      | false => simp
      | true => simp
  | true =>
      cases y.minus with
      | false => simp
      | true => simp

theorem multiply_yields {mip : Mip} (clean : mip.Clean) (ready : mip.ernum = none) {x y z : Slot}
    (xApart : x ≠ productSlot x y z) (yApart : y ≠ productSlot x y z)
    (room : (mip.bigs x).len + (mip.bigs y).len ≤ mip.nib ∨ mip.check = false) :
    Yields mip (mip.multiply x y z) (· = productSlot x y z) z (mip.value x * mip.value y) := by
  rw [multiply, if_neg (by simp [ready])]
  by_cases zero : (mip.bigs y).len = 0 ∨ (mip.bigs x).len = 0
  · have product : mip.value x * mip.value y = 0 := by
      rcases zero with yZero | xZero
      · rw [show mip.value y = 0 from Big.value_of_empty yZero, mul_zero]
      · rw [show mip.value x = 0 from Big.value_of_empty xZero, zero_mul]
    rw [if_pos zero, zero_eq z clean, product]
    exact yields_set clean _ z 0
  · rw [not_or] at zero
    have fits : ¬(mip.check = true ∧ (mip.bigs x).len + (mip.bigs y).len > mip.nib) := by
      rintro ⟨check, tooLong⟩
      rcases room with roomy | unchecked
      · omega
      · rw [unchecked] at check
        cases check
    generalize productSlot x y z = w0 at xApart yApart ⊢
    have start : mip.zero w0 = mip.set w0 (Big.ofInt 0) := zero_eq w0 clean
    have xKept : (mip.set w0 (Big.ofInt 0)).bigs x = mip.bigs x := bigs_set_of_ne mip _ xApart
    have yKept : (mip.set w0 (Big.ofInt 0)).bigs y = mip.bigs y := bigs_set_of_ne mip _ yApart
    have words := productWords (@Clean.set _ clean w0 _ (Big.ofInt_normal 0).clean)
      (fun j => by rw [bigs_set_self]; exact (Big.ofInt_normal 0).clean j (Nat.zero_le j))
      (x := x) (y := y) (by rw [xKept]; exact zero.2) (by rw [xKept, yKept]; exact room)
    rw [xKept, yKept] at words
    simp only [if_neg (not_or.mpr zero), start, set_check, set_nib, if_neg fits]
    generalize (if x = y ∧ (mip.bigs x).len > sqrFasterThreshold then _ else _) = mip' at words ⊢
    rcases words with ⟨⟨big, rfl⟩, zeros, total⟩
    simp only [set_set, bigs_set_self] at zeros total ⊢
    have wordsClean : (⟨(mip.bigs x).minus != (mip.bigs y).minus,
        (mip.bigs x).len + (mip.bigs y).len, big.w⟩ : Big).Clean := zeros
    have built : (⟨(mip.bigs x).minus != (mip.bigs y).minus, (mip.bigs x).len + (mip.bigs y).len,
        big.w⟩ : Big).lzero = Big.ofInt (mip.value x * mip.value y) := by
      rw [Big.lzero_eq wordsClean, Big.value, Big.magnitude]
      simp only [total]
      rw [value_mul]
      rfl
    have productClean := (Big.ofInt_normal (mip.value x * mip.value y)).clean
    rw [mrLzero, bigs_set_self, built, set_set, copy_eq w0 z (clean.set productClean),
      bigs_set_self]
    constructor
    · rfl
    · exact (clean.set productClean).set productClean
    · exact bigs_set_self _ _ _
    · intro slot ne apart
      rw [bigs_set_of_ne _ _ ne, bigs_set_of_ne _ _ apart]

/-- `multiply` delivers the product into any number, whichever of the three are the same and
by whichever of its two ways; or the lengths do not fit and the error number says so. -/
theorem multiply_exact {mip : Mip} (clean : mip.Clean) (ready : mip.ernum = none) {x y z : Slot}
    (xApart : x ≠ productSlot x y z) (yApart : y ≠ productSlot x y z) :
    if mip.check = true ∧ (mip.bigs x).len ≠ 0 ∧ (mip.bigs y).len ≠ 0 ∧
        mip.nib < (mip.bigs x).len + (mip.bigs y).len then
      (mip.multiply x y z).ernum = some .overflow
    else
      Yields mip (mip.multiply x y z) (· = productSlot x y z) z (mip.value x * mip.value y) := by
  split
  · rename_i tooLong
    rcases tooLong with ⟨check, xSome, ySome, tooLong⟩
    have overflow : (mip.zero (productSlot x y z)).check = true ∧
        (mip.bigs x).len + (mip.bigs y).len > (mip.zero (productSlot x y z)).nib := ⟨check, tooLong⟩
    rw [multiply, if_neg (by simp [ready]), if_neg (not_or.mpr ⟨ySome, xSome⟩), if_pos overflow]
    rfl
  · rename_i fits
    by_cases empty : (mip.bigs x).len = 0 ∨ (mip.bigs y).len = 0
    · have product : mip.value x * mip.value y = 0 := by
        rcases empty with xZero | yZero
        · rw [show mip.value x = 0 from Big.value_of_empty xZero, zero_mul]
        · rw [show mip.value y = 0 from Big.value_of_empty yZero, mul_zero]
      rw [multiply, if_neg (by simp [ready]), if_pos empty.symm, zero_eq z clean, product]
      exact yields_set clean _ z 0
    · apply multiply_yields clean ready xApart yApart
      cases check : mip.check with
      | false => exact Or.inr rfl
      | true =>
          left
          by_contra tooLong
          exact fits ⟨check, fun zero => empty (Or.inl zero), fun zero => empty (Or.inr zero),
            Nat.not_le.mp tooLong⟩

theorem multiply_exact_square :
    let mip := (mirsys 17).set (.caller 0) (Big.ofInt (-(2 ^ 190)))
    Yields mip (mip.multiply (.caller 0) (.caller 0) (.caller 0)) (· = .w 0) (.caller 0)
      (2 ^ 190 * 2 ^ 190) := by
  intro mip
  have number : mip.bigs (.caller 0) = Big.ofInt (-(2 ^ 190)) := rfl
  have clean : mip.Clean := (mirsys_clean 17).set (Big.ofInt_normal (-(2 ^ 190))).clean
  have length : (mip.bigs (.caller 0)).len = 6 := by
    rw [number, (Big.ofInt_normal _).len_eq, Big.ofInt_magnitude]
    exact Big.wordCount_eq (by decide) (by decide)
  have exact' := multiply_exact clean rfl (x := .caller 0) (y := .caller 0) (z := .caller 0)
    (by decide) (by decide)
  rw [if_neg (by rw [length]; rintro ⟨-, -, -, tooLong⟩; exact absurd tooLong (by decide)),
    show mip.value (.caller 0) = -(2 ^ 190) from Big.ofInt_value _, neg_mul_neg] at exact'
  exact exact'

end Mip

end Penglai.Miracl
