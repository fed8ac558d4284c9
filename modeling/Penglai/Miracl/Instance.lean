import Penglai.Miracl.Big

namespace Penglai.Miracl

/-! # The MIRACL instance

`mr_mip` with the big numbers a routine can be handed: a `big` is a pointer, so the
same slot may be passed for several arguments, and the routines of the library
compare pointers to tell. -/

inductive Slot where
  | w (index : Nat)
  | modulus
  | pR
  | a
  | b
  | one
  | caller (index : Nat)
  deriving DecidableEq

inductive MiraclError where
  | divByZero
  | overflow
  | negResult
  | badParameters
  | tooBig
  | badModulus
  | noModulus
  | compositeModulus
  deriving DecidableEq

structure Mip where
  nib : Nat
  check : Bool
  ernum : Option MiraclError
  monty : Bool
  ndash : UInt32
  bigs : Slot → Big

namespace Mip

def set (mip : Mip) (slot : Slot) (big : Big) : Mip :=
  { mip with bigs := Function.update mip.bigs slot big }

def berror (mip : Mip) (error : MiraclError) : Mip := { mip with ernum := some error }

def setCheck (mip : Mip) (check : Bool) : Mip := { mip with check }

def value (mip : Mip) (slot : Slot) : Int := (mip.bigs slot).value

/-- Every number is in the state the routines rely on. -/
def Clean (mip : Mip) : Prop := ∀ slot, (mip.bigs slot).Clean

section Updates

variable (mip : Mip) (slot : Slot) (big : Big)

@[simp] theorem set_nib : (mip.set slot big).nib = mip.nib := rfl

@[simp] theorem set_check : (mip.set slot big).check = mip.check := rfl

@[simp] theorem set_ernum : (mip.set slot big).ernum = mip.ernum := rfl

@[simp] theorem set_monty : (mip.set slot big).monty = mip.monty := rfl

@[simp] theorem set_ndash : (mip.set slot big).ndash = mip.ndash := rfl

@[simp] theorem setCheck_check (check : Bool) : (mip.setCheck check).check = check := rfl

@[simp] theorem bigs_setCheck (check : Bool) : (mip.setCheck check).bigs slot = mip.bigs slot := rfl

@[simp] theorem bigs_set_self : (mip.set slot big).bigs slot = big :=
  Function.update_self _ _ _

theorem bigs_set (other : Slot) :
    (mip.set slot big).bigs other = if other = slot then big else mip.bigs other :=
  Function.update_apply _ _ _ _

@[simp] theorem set_set (again : Big) : (mip.set slot big).set slot again = mip.set slot again := by
  simp only [set, Function.update_idem]

@[simp] theorem set_bigs : mip.set slot (mip.bigs slot) = mip := by
  simp only [set, Function.update_eq_self]

end Updates

@[simp] theorem bigs_set_of_ne (mip : Mip) {slot other : Slot} (big : Big) (ne : other ≠ slot) :
    (mip.set slot big).bigs other = mip.bigs other :=
  Function.update_of_ne ne _ _

theorem set_comm (mip : Mip) {slot other : Slot} (ne : slot ≠ other) (big big' : Big) :
    (mip.set slot big).set other big' = (mip.set other big').set slot big := by
  simp only [set, Function.update_comm ne]

theorem Clean.set {mip : Mip} (clean : mip.Clean) {slot : Slot} {big : Big}
    (bigClean : big.Clean) : (mip.set slot big).Clean := by
  intro other
  rw [bigs_set]
  split
  · exact bigClean
  · exact clean other

def mirsys (nib : Nat) : Mip where
  nib := nib
  check := true
  ernum := none
  monty := true
  ndash := 0
  bigs := fun _ => Big.ofNat 0

theorem mirsys_clean (nib : Nat) : (mirsys nib).Clean := fun _ => (Big.ofNat_normal 0).clean

theorem eq_of_bigs {mip mip' : Mip} (rest : mip = { mip' with bigs := mip.bigs })
    (same : ∀ slot, mip.bigs slot = mip'.bigs slot) : mip = mip' := by
  rw [rest, funext same]

/-- What a routine leaves that delivers `result` in `z`: a number in normal form, and
nothing else changed but the numbers it calculates with. -/
structure Yields (mip mip' : Mip) (scratch : Slot → Prop) (z : Slot) (result : Int) : Prop where
  rest : mip' = { mip with bigs := mip'.bigs }
  clean : mip'.Clean
  result : mip'.bigs z = Big.ofInt result
  kept : ∀ slot, slot ≠ z → ¬scratch slot → mip'.bigs slot = mip.bigs slot

theorem yields_set {mip : Mip} (clean : mip.Clean) (scratch : Slot → Prop) (z : Slot)
    (result : Int) : Yields mip (mip.set z (Big.ofInt result)) scratch z result where
  rest := rfl
  clean := clean.set (Big.ofInt_normal result).clean
  result := bigs_set_self mip z _
  kept := fun _ ne _ => bigs_set_of_ne mip _ ne

theorem Yields.trans {mip mip' mip'' : Mip} {scratch : Slot → Prop} {z w : Slot}
    {result final : Int} (first : Yields mip mip' scratch z result) (inside : scratch z ∨ z = w)
    (second : Yields mip' mip'' scratch w final) : Yields mip mip'' scratch w final where
  rest := by
    rw [second.rest, first.rest]
  clean := second.clean
  result := second.result
  kept := by
    intro slot ne apart
    rw [second.kept slot ne apart]
    apply first.kept slot _ apart
    rintro rfl
    exact inside.elim apart ne

theorem Yields.checked {mip mip' : Mip} {scratch : Slot → Prop} {z : Slot} {result : Int}
    (check : mip.check = true) (yields : Yields (mip.setCheck false) mip' scratch z result) :
    Yields mip (mip'.setCheck true) scratch z result where
  rest := by
    rw [yields.rest, setCheck, setCheck, ← check]
  clean := yields.clean
  result := yields.result
  kept := yields.kept

end Mip

/-! ## Assignments -/

namespace Big

def zeroed (x : Big) : Big where
  minus := false
  len := 0
  w := fun i => if i < x.len then 0 else x.w i

def copied (x y : Big) : Big :=
  { x with w := fun i => if i < x.len then x.w i else if i < y.len then 0 else y.w i }

theorem zeroed_eq {x : Big} (clean : x.Clean) : x.zeroed = ofNat 0 := by
  have words : (fun i => if i < x.len then 0 else x.w i) = fun i => (ofNat 0).w i := by
    funext i
    split
    · simp [ofNat]
    · rw [clean i (by omega)]
      simp [ofNat]
  rw [zeroed, words]
  rfl

theorem copied_eq {x y : Big} (xClean : x.Clean) (yClean : y.Clean) : x.copied y = x := by
  have words : (fun i => if i < x.len then x.w i else if i < y.len then 0 else y.w i) = x.w := by
    funext i
    split
    · rfl
    · rw [xClean i (by omega)]
      split
      · rfl
      · exact yClean i (by omega)
  rw [copied, words]

def stripped (w : Nat → UInt32) : Nat → Nat
  | 0 => 0
  | m + 1 => if w m = 0 then stripped w m else m + 1

def lzero (x : Big) : Big :=
  let m := stripped x.w x.len
  { x with len := m, minus := decide (0 < m) && x.minus }

theorem stripped_le (w : Nat → UInt32) : ∀ m, stripped w m ≤ m
  | 0 => Nat.le_refl 0
  | m + 1 => by
      rw [stripped]
      split
      · exact (stripped_le w m).trans (Nat.le_succ m)
      · exact Nat.le_refl _

theorem stripped_zeros (w : Nat → UInt32) : ∀ m i, stripped w m ≤ i → i < m → w i = 0
  | 0, _, _, bound => absurd bound (Nat.not_lt_zero _)
  | m + 1, i, above, bound => by
      rw [stripped] at above
      split at above
      · rcases Nat.lt_succ_iff_lt_or_eq.mp bound with below | rfl
        · exact stripped_zeros w m i above below
        · assumption
      · omega

theorem stripped_top (w : Nat → UInt32) : ∀ m i, stripped w m = i + 1 → w i ≠ 0
  | 0, _, empty => by cases empty
  | m + 1, i, equal => by
      rw [stripped] at equal
      split at equal
      · exact stripped_top w m i equal
      · rw [Nat.add_right_cancel_iff] at equal
        subst equal
        assumption

theorem lzero_below {x : Big} : below x.w (stripped x.w x.len) = x.magnitude :=
  (numeral_extend (stripped_le x.w x.len) fun i above bound => by
    rw [stripped_zeros x.w x.len i above bound]
    rfl).symm

theorem lzero_normal {x : Big} (clean : x.Clean) : x.lzero.Normal where
  clean := by
    intro i above
    by_cases inside : i < x.len
    · exact stripped_zeros x.w x.len i above inside
    · exact clean i (by omega)
  top := fun i length => stripped_top x.w x.len i length
  sign := by
    intro empty
    simp only [lzero] at empty ⊢
    rw [empty]
    rfl

theorem lzero_value {x : Big} : x.lzero.value = x.value := by
  have magnitude : x.lzero.magnitude = x.magnitude := lzero_below
  rw [value, value, magnitude]
  by_cases empty : stripped x.w x.len = 0
  · have zero : x.magnitude = 0 := by rw [← lzero_below, empty, below_zero]
    simp [zero]
  · have sign : x.lzero.minus = x.minus := by simp [lzero, Nat.pos_of_ne_zero empty]
    rw [sign]

theorem lzero_eq {x : Big} (clean : x.Clean) : x.lzero = ofInt x.value := by
  rw [(lzero_normal clean).eq_ofInt, lzero_value]

theorem lzero_words {w : Nat → UInt32} {len total : Nat} (clean : ∀ i, len ≤ i → w i = 0)
    (words : below w len = total) : lzero ⟨false, len, w⟩ = ofNat total := by
  rw [← ofInt_natCast, ← words]
  exact lzero_eq (x := ⟨false, len, w⟩) clean

theorem Normal.lzero_eq_self {x : Big} (normal : x.Normal) : x.lzero = x := by
  rw [lzero_eq normal.clean, ← normal.eq_ofInt]

end Big

namespace Mip

def zero (x : Slot) (mip : Mip) : Mip := mip.set x (mip.bigs x).zeroed

def copy (x y : Slot) (mip : Mip) : Mip :=
  if x = y then mip else mip.set y ((mip.bigs x).copied (mip.bigs y))

def mrLzero (x : Slot) (mip : Mip) : Mip := mip.set x (mip.bigs x).lzero

theorem zero_eq {mip : Mip} (x : Slot) (clean : mip.Clean) : mip.zero x = mip.set x (Big.ofInt 0) := by
  rw [zero, Big.zeroed_eq (clean x)]
  rfl

theorem mrLzero_eq_self {mip : Mip} {x : Slot} (normal : (mip.bigs x).Normal) :
    mip.mrLzero x = mip := by
  rw [mrLzero, normal.lzero_eq_self, set_bigs]

theorem copy_eq {mip : Mip} (x y : Slot) (clean : mip.Clean) :
    mip.copy x y = mip.set y (mip.bigs x) := by
  rw [copy]
  split
  · rename_i same
    rw [same, set_bigs]
  · rw [Big.copied_eq (clean x) (clean y)]

theorem copy_yields {mip : Mip} (clean : mip.Clean) {x : Slot} {result : Int}
    (number : mip.bigs x = Big.ofInt result) (scratch : Slot → Prop) (y : Slot) :
    Yields mip (mip.copy x y) scratch y result := by
  rw [copy_eq x y clean, number]
  exact yields_set clean scratch y result

theorem set_neg (mip : Mip) (z : Slot) (value : Int) :
    (if ((mip.set z (Big.ofInt value)).bigs z).len ≠ 0 then
      (mip.set z (Big.ofInt value)).set z
        { (mip.set z (Big.ofInt value)).bigs z with
          minus := !((mip.set z (Big.ofInt value)).bigs z).minus }
    else mip.set z (Big.ofInt value)) = mip.set z (Big.ofInt (-value)) := by
  simp only [bigs_set_self, set_set]
  split
  · rename_i nonzero
    rw [Big.ofInt_neg fun zero => nonzero (Big.ofInt_len_eq_zero.mpr zero)]
  · rename_i zero
    rw [Big.ofInt_len_eq_zero.mp (not_not.mp zero), neg_zero]

def convert (n : Int) (x : Slot) (mip : Mip) : Mip :=
  let mip := mip.zero x
  if n = 0 then mip
  else
    let big := mip.bigs x
    mip.set x { minus := decide (n < 0), len := 1,
                w := Function.update big.w 0 (UInt32.ofNat n.natAbs) }

end Mip

namespace Big

def size (x : Big) : Int :=
  let n : Nat := if x.len = 1 ∧ (x.w 0).toNat < 2 ^ 30 then (x.w 0).toNat else 2 ^ 30
  if x.len = 0 then 0 else if x.minus then -n else n

theorem Normal.size_eq_zero {x : Big} (normal : x.Normal) : x.size = 0 ↔ x.magnitude = 0 := by
  rw [normal.magnitude_eq_zero]
  constructor
  · intro zero
    by_contra nonempty
    rw [size, if_neg nonempty] at zero
    have word : (if x.len = 1 ∧ (x.w 0).toNat < 2 ^ 30 then (x.w 0).toNat else 2 ^ 30) ≠ 0 := by
      split
      · rename_i single
        exact fun empty => normal.top 0 single.1 (UInt32.toNat_inj.mp empty)
      · decide
    generalize (if x.len = 1 ∧ (x.w 0).toNat < 2 ^ 30 then (x.w 0).toNat else 2 ^ 30) = n at *
    split at zero
    · omega
    · omega
  · intro empty
    rw [size, if_pos empty]

theorem Normal.size_lt_zero {x : Big} (normal : x.Normal) : x.size < 0 ↔ x.value < 0 := by
  have minus := normal.minus_eq
  rw [size]
  split
  · rename_i empty
    rw [value_of_empty empty]
  · rename_i nonempty
    have word : (0 : Int) < ((if x.len = 1 ∧ (x.w 0).toNat < 2 ^ 30 then (x.w 0).toNat
        else 2 ^ 30 : Nat) : Int) := by
      split
      · rename_i single
        exact Int.natCast_pos.mpr (Nat.pos_of_ne_zero fun empty =>
          normal.top 0 single.1 (UInt32.toNat_inj.mp empty))
      · decide
    generalize (if x.len = 1 ∧ (x.w 0).toNat < 2 ^ 30 then (x.w 0).toNat else 2 ^ 30) = n at *
    split
    · rename_i negative
      rw [negative] at minus
      have less := of_decide_eq_true minus.symm
      omega
    · rename_i positive
      rw [Bool.not_eq_true] at positive
      rw [positive] at minus
      have notLess := of_decide_eq_false minus.symm
      omega

def compareWords (x y : Nat → UInt32) (sig : Int) : Nat → Int
  | 0 => 0
  | m + 1 => if x m > y m then sig else if x m < y m then -sig else compareWords x y sig m

def compare (x y : Big) : Int :=
  let sig := if x.minus then -1 else 1
  if x.minus ≠ y.minus then sig
  else if x.len > y.len then sig
  else if x.len < y.len then -sig
  else compareWords x.w y.w sig x.len

theorem compareWords_eq (x y : Nat → UInt32) (sig : Int) : ∀ m,
    compareWords x y sig m = sig * ((below x m : Int) - below y m).sign
  | 0 => by simp [compareWords]
  | m + 1 => by
      have lower {x y : Nat → UInt32} (less : x m < y m) : below x (m + 1) < below y (m + 1) :=
        numeral_lt_of_digit_lt (Nat.lt_succ_self m) (fun i _ => word_lt (x i))
          (UInt32.lt_iff_toNat_lt.mp less) (fun i above bound => by omega)
      rw [compareWords]
      split
      · rename_i more
        have := lower more
        rw [Int.sign_eq_one_of_pos (by omega), mul_one]
      · rename_i notMore
        split
        · rename_i less
          have := lower less
          rw [Int.sign_eq_neg_one_of_neg (by omega), mul_neg, mul_one]
        · rename_i notLess
          have same : x m = y m := UInt32.le_antisymm (UInt32.not_lt.mp notMore)
            (UInt32.not_lt.mp notLess)
          rw [compareWords_eq x y sig m, below_succ, below_succ, same]
          congr 2
          omega

/-- On normal numbers, the sign, the lengths and the words decide in this order. -/
theorem Normal.compare_eq {x y : Big} (xNormal : x.Normal) (yNormal : y.Normal) :
    x.compare y = (x.value - y.value).sign := by
  have shorter {x y : Big} (yNormal : y.Normal) (less : x.len < y.len) :
      x.magnitude < y.magnitude := by
    rcases Nat.exists_eq_succ_of_ne_zero (Nat.ne_of_gt ((Nat.zero_le _).trans_lt less)) with
      ⟨i, length⟩
    calc x.magnitude < wordBase ^ x.len := x.magnitude_lt
      _ ≤ wordBase ^ i := Nat.pow_le_pow_right wordBase_pos (by omega)
      _ ≤ y.magnitude := yNormal.pow_le length
  have negative {x : Big} (normal : x.Normal) (minus : x.minus = true) : x.value < 0 := by
    have := normal.minus_eq
    rw [minus] at this
    simpa using this.symm
  have positive {x : Big} (plus : x.minus = false) : x.value = x.magnitude := by
    rw [value, plus]
    rfl
  have opposite {x : Big} (minus : x.minus = true) : x.value = -x.magnitude := by
    rw [value, minus]
    rfl
  rw [compare]
  cases xSign : x.minus with
  | false =>
      cases ySign : y.minus with
      | true =>
          have := negative yNormal ySign
          have := positive xSign
          rw [Int.sign_eq_one_of_pos (by omega)]
          simp
      | false =>
          rw [positive xSign, positive ySign]
          simp only [Bool.false_eq_true, if_false, ne_eq, not_true_eq_false]
          split
          · have := shorter xNormal (show y.len < x.len by assumption)
            rw [Int.sign_eq_one_of_pos (by omega)]
          · split
            · have := shorter yNormal (show x.len < y.len by assumption)
              rw [Int.sign_eq_neg_one_of_neg (by omega)]
            · have same : x.len = y.len := by omega
              rw [compareWords_eq, one_mul, magnitude, magnitude, same]
  | true =>
      cases ySign : y.minus with
      | false =>
          have := negative xNormal xSign
          have := positive ySign
          rw [Int.sign_eq_neg_one_of_neg (by omega)]
          simp
      | true =>
          rw [opposite xSign, opposite ySign]
          simp only [if_true, ne_eq, not_true_eq_false, if_false]
          split
          · have := shorter xNormal (show y.len < x.len by assumption)
            rw [Int.sign_eq_neg_one_of_neg (by omega)]
          · split
            · have := shorter yNormal (show x.len < y.len by assumption)
              rw [Int.sign_eq_one_of_pos (by omega)]
              rfl
            · have same : x.len = y.len := by omega
              rw [compareWords_eq, magnitude, magnitude, same, neg_one_mul, ← Int.sign_neg]
              congr 1
              omega

end Big

def Mip.mrCompare (x y : Slot) (mip : Mip) : Int :=
  if x = y then 0 else (mip.bigs x).compare (mip.bigs y)

theorem Mip.mrCompare_eq {mip : Mip} {x y : Slot} (xNormal : (mip.bigs x).Normal)
    (yNormal : (mip.bigs y).Normal) :
    mip.mrCompare x y = (mip.value x - mip.value y).sign := by
  rw [Mip.mrCompare]
  split
  · rename_i same
    rw [same, sub_self]
    rfl
  · exact xNormal.compare_eq yNormal

end Penglai.Miracl
