import Penglai.Foundation.Cells
import Penglai.Foundation.Numeral

namespace Penglai.Miracl

/-! # Big numbers

`struct bigtype` of MIRACL in full-width base: a sign, a length in words and the
words, least significant first. The sign is the top bit of the field `len` in the
source. Every routine of the library relies on the words behind the length being
zero, and leaves them so. -/

/-- The number base that `mr_mip->base == 0` stands for. -/
def wordBase : Nat := 2 ^ 32

structure Big where
  minus : Bool
  len : Nat
  w : Nat → UInt32

namespace Big

/-! ## Values -/

def below (w : Nat → UInt32) (count : Nat) : Nat :=
  numeral wordBase (fun i => (w i).toNat) count

def magnitude (x : Big) : Nat := below x.w x.len

def value (x : Big) : Int := if x.minus then -x.magnitude else x.magnitude

/-- The words behind the length are zero. -/
def Clean (x : Big) : Prop := ∀ i, x.len ≤ i → x.w i = 0

/-- A number as the routines deliver it: no leading zero word, and zero has no sign. -/
structure Normal (x : Big) : Prop where
  clean : x.Clean
  top : ∀ i, x.len = i + 1 → x.w i ≠ 0
  sign : x.len = 0 → x.minus = false

theorem word_lt (word : UInt32) : word.toNat < wordBase := word.toNat_lt

theorem wordBase_pos : 0 < wordBase := by decide

theorem one_lt_wordBase : 1 < wordBase := by decide

@[simp] theorem below_zero (w : Nat → UInt32) : below w 0 = 0 := rfl

theorem below_succ (w : Nat → UInt32) (count : Nat) :
    below w (count + 1) = below w count + (w count).toNat * wordBase ^ count :=
  numeral_succ

theorem below_lt (w : Nat → UInt32) (count : Nat) : below w count < wordBase ^ count :=
  numeral_lt fun i _ => word_lt (w i)

theorem below_congr {w w' : Nat → UInt32} {count : Nat} (same : ∀ i < count, w i = w' i) :
    below w count = below w' count :=
  numeral_congr fun i bound => by rw [same i bound]

theorem below_extend {w : Nat → UInt32} {shorter count : Nat} (le : shorter ≤ count)
    (zeros : ∀ i, shorter ≤ i → w i = 0) : below w count = below w shorter :=
  numeral_extend le fun i bound _ => by rw [zeros i bound]; rfl

theorem Clean.below_eq {x : Big} (clean : x.Clean) {count : Nat} (le : x.len ≤ count) :
    below x.w count = x.magnitude :=
  below_extend le clean

theorem magnitude_lt (x : Big) : x.magnitude < wordBase ^ x.len := below_lt x.w x.len

theorem Normal.pow_le {x : Big} (normal : x.Normal) {i : Nat} (length : x.len = i + 1) :
    wordBase ^ i ≤ x.magnitude := by
  rw [magnitude, length]
  apply pow_le_numeral
  rw [Nat.pos_iff_ne_zero]
  exact fun zero => normal.top i length (UInt32.toNat_inj.mp zero)

theorem magnitude_of_empty {x : Big} (empty : x.len = 0) : x.magnitude = 0 := by
  rw [magnitude, empty, below_zero]

def signed (minus : Bool) (magnitude : Nat) : Int := if minus then -magnitude else magnitude

theorem value_eq_signed (x : Big) : x.value = signed x.minus x.magnitude := rfl

theorem value_of_empty {x : Big} (empty : x.len = 0) : x.value = 0 := by
  rw [value, magnitude_of_empty empty]
  simp

theorem Normal.magnitude_eq_zero {x : Big} (normal : x.Normal) :
    x.magnitude = 0 ↔ x.len = 0 := by
  constructor
  · intro zero
    cases length : x.len with
    | zero => rfl
    | succ i =>
        have := normal.pow_le length
        have : 0 < wordBase ^ i := Nat.pow_pos wordBase_pos
        omega
  · exact magnitude_of_empty

theorem Normal.len_le {x : Big} (normal : x.Normal) {bound : Nat}
    (fits : x.magnitude < wordBase ^ bound) : x.len ≤ bound := by
  cases length : x.len with
  | zero => omega
  | succ i =>
      have := (Nat.pow_lt_pow_iff_right one_lt_wordBase).mp ((normal.pow_le length).trans_lt fits)
      omega

/-! ## The number with a given value -/

def wordCount (magnitude : Nat) : Nat :=
  if magnitude = 0 then 0 else Nat.log wordBase magnitude + 1

def ofNat (magnitude : Nat) : Big where
  minus := false
  len := wordCount magnitude
  w := fun i => UInt32.ofNat (magnitude / wordBase ^ i)

def ofInt (value : Int) : Big := { ofNat value.natAbs with minus := decide (value < 0) }

@[simp] theorem wordCount_zero : wordCount 0 = 0 := rfl

theorem lt_pow_wordCount (magnitude : Nat) : magnitude < wordBase ^ wordCount magnitude := by
  rw [wordCount]
  split
  · rw [pow_zero]
    omega
  · exact Nat.lt_pow_succ_log_self one_lt_wordBase magnitude

theorem wordCount_eq {magnitude i : Nat} (low : wordBase ^ i ≤ magnitude)
    (high : magnitude < wordBase ^ (i + 1)) : wordCount magnitude = i + 1 := by
  have positive : 0 < wordBase ^ i := Nat.pow_pos wordBase_pos
  have nonzero : magnitude ≠ 0 := by omega
  rw [wordCount, if_neg nonzero,
    (Nat.log_eq_iff (Or.inr ⟨one_lt_wordBase, nonzero⟩)).mpr ⟨low, high⟩]

theorem pow_le_of_wordCount {magnitude i : Nat} (length : wordCount magnitude = i + 1) :
    wordBase ^ i ≤ magnitude := by
  rw [wordCount] at length
  split at length
  · omega
  · rw [Nat.add_right_cancel_iff] at length
    rw [← length]
    exact Nat.pow_log_le_self wordBase (by assumption)

theorem lt_wordCount {magnitude count : Nat} :
    count < wordCount magnitude ↔ wordBase ^ count ≤ magnitude := by
  constructor
  · intro longer
    rcases Nat.exists_eq_succ_of_ne_zero (Nat.ne_zero_of_lt longer) with ⟨i, length⟩
    exact (Nat.pow_le_pow_right wordBase_pos (by omega)).trans (pow_le_of_wordCount length)
  · intro low
    exact (Nat.pow_lt_pow_iff_right one_lt_wordBase).mp
      (low.trans_lt (lt_pow_wordCount magnitude))

theorem toNat_word_ofNat (magnitude i : Nat) :
    ((ofNat magnitude).w i).toNat = magnitude / wordBase ^ i % wordBase :=
  UInt32.toNat_ofNat'

theorem below_ofNat (magnitude count : Nat) :
    below (ofNat magnitude).w count = magnitude % wordBase ^ count := by
  induction count with
  | zero => simp [Nat.mod_one]
  | succ count induction =>
      rw [below_succ, induction, toNat_word_ofNat, Nat.mul_comm, Nat.pow_succ, Nat.mod_mul]

@[simp] theorem magnitude_ofNat (magnitude : Nat) : (ofNat magnitude).magnitude = magnitude := by
  have bound : magnitude < wordBase ^ (ofNat magnitude).len := lt_pow_wordCount magnitude
  rw [Big.magnitude, below_ofNat, Nat.mod_eq_of_lt bound]

theorem ofNat_normal (magnitude : Nat) : (ofNat magnitude).Normal where
  clean := by
    intro i behind
    have small : magnitude < wordBase ^ i :=
      (lt_pow_wordCount magnitude).trans_le (Nat.pow_le_pow_right wordBase_pos behind)
    apply UInt32.toNat_inj.mp
    rw [toNat_word_ofNat, Nat.div_eq_of_lt small]
    rfl
  top := by
    intro i length zero
    have low := pow_le_of_wordCount length
    have high := lt_pow_wordCount magnitude
    rw [show wordCount magnitude = i + 1 from length, pow_succ] at high
    have digit := toNat_word_ofNat magnitude i
    rw [zero, Nat.mod_eq_of_lt (Nat.div_lt_of_lt_mul high)] at digit
    have := Nat.div_pos low (Nat.pow_pos wordBase_pos)
    simp only [UInt32.toNat_zero] at digit
    omega
  sign := fun _ => rfl

@[simp] theorem ofInt_magnitude (value : Int) : (ofInt value).magnitude = value.natAbs :=
  magnitude_ofNat value.natAbs

theorem ofInt_normal (value : Int) : (ofInt value).Normal where
  clean := (ofNat_normal value.natAbs).clean
  top := (ofNat_normal value.natAbs).top
  sign := by
    intro empty
    have zero := (ofNat_normal value.natAbs).magnitude_eq_zero.mpr empty
    rw [magnitude_ofNat, Int.natAbs_eq_zero] at zero
    rw [zero]
    rfl

@[simp] theorem ofInt_value (value : Int) : (ofInt value).value = value := by
  rw [Big.value, ofInt_magnitude]
  by_cases negative : value < 0
  · rw [if_pos (by simpa [ofInt] using negative)]
    omega
  · rw [if_neg (by simpa [ofInt] using negative)]
    omega

theorem ofInt_natCast (magnitude : Nat) : ofInt magnitude = ofNat magnitude := by
  rw [ofInt, Int.natAbs_natCast, decide_eq_false (by omega)]
  rfl

theorem ofInt_len_eq_zero {value : Int} : (ofInt value).len = 0 ↔ value = 0 := by
  rw [← (ofInt_normal value).magnitude_eq_zero, ofInt_magnitude, Int.natAbs_eq_zero]

theorem ofInt_neg {value : Int} (nonzero : value ≠ 0) :
    { ofInt value with minus := !(ofInt value).minus } = ofInt (-value) := by
  rw [ofInt, ofInt, Int.natAbs_neg]
  by_cases negative : value < 0
  · simp [negative]
    omega
  · simp [negative]
    omega

/-! ## Normal numbers are determined by their values -/

theorem eq_of_words {x y : Big} (xClean : x.Clean) (yClean : y.Clean) (sign : x.minus = y.minus)
    (length : x.len = y.len) (magnitude : x.magnitude = y.magnitude) : x = y := by
  have inside := digit_eq_of_numeral_eq (fun i _ => word_lt (x.w i)) (fun i _ => word_lt (y.w i))
    (magnitude.trans (by rw [Big.magnitude, ← length]; rfl))
  have words : x.w = y.w := by
    funext i
    by_cases within : i < x.len
    · exact UInt32.toNat_inj.mp (inside i within)
    · rw [xClean i (by omega), yClean i (by omega)]
  cases x
  cases y
  simp_all

theorem Normal.len_eq {x : Big} (normal : x.Normal) : x.len = wordCount x.magnitude := by
  cases length : x.len with
  | zero => rw [(normal.magnitude_eq_zero).mpr length, wordCount_zero]
  | succ i =>
      have high := x.magnitude_lt
      rw [length] at high
      exact (wordCount_eq (normal.pow_le length) high).symm

theorem Normal.eq_ofNat {x : Big} (normal : x.Normal) (plus : x.minus = false) :
    x = ofNat x.magnitude :=
  eq_of_words normal.clean (ofNat_normal _).clean plus normal.len_eq (magnitude_ofNat _).symm

theorem Normal.toNat_word {x : Big} (normal : x.Normal) (i : Nat) :
    (x.w i).toNat = x.magnitude / wordBase ^ i % wordBase := by
  have unsigned : { x with minus := false } = ofNat x.magnitude :=
    eq_of_words normal.clean (ofNat_normal _).clean rfl normal.len_eq (magnitude_ofNat _).symm
  rw [← toNat_word_ofNat, ← unsigned]

theorem Normal.minus_eq {x : Big} (normal : x.Normal) : x.minus = decide (x.value < 0) := by
  rw [value]
  cases sign : x.minus with
  | false => simp
  | true =>
      have nonzero : x.magnitude ≠ 0 := by
        intro zero
        have := normal.sign (normal.magnitude_eq_zero.mp zero)
        rw [sign] at this
        cases this
      rw [if_pos rfl, decide_eq_true (by omega)]

theorem natAbs_value (x : Big) : x.value.natAbs = x.magnitude := by
  rw [value]
  split
  · omega
  · omega

theorem Normal.eq_ofInt {x : Big} (normal : x.Normal) : x = ofInt x.value := by
  apply eq_of_words normal.clean (ofInt_normal _).clean
  · exact normal.minus_eq
  · rw [normal.len_eq, ← natAbs_value]
    rfl
  · rw [ofInt_magnitude, natAbs_value]

theorem normal_of_length {x : Big} (clean : x.Clean) (length : x.len = wordCount x.magnitude)
    (sign : x.len = 0 → x.minus = false) : x.Normal where
  clean := clean
  top := by
    intro i size zero
    have high : wordBase ^ i ≤ x.magnitude := pow_le_of_wordCount (length.symm.trans size)
    rw [magnitude, size, below_succ, zero, UInt32.toNat_zero, zero_mul, add_zero] at high
    exact absurd (below_lt x.w i) (Nat.not_lt.mpr high)
  sign := sign

theorem eq_ofNat_of_below {x : Big} {magnitude : Nat} (plus : x.minus = false) (clean : x.Clean)
    (length : x.len = wordCount magnitude) (words : below x.w x.len = magnitude) :
    x = ofNat magnitude :=
  eq_of_words clean (ofNat_normal magnitude).clean plus length
    (words.trans (magnitude_ofNat magnitude).symm)

end Big

end Penglai.Miracl
