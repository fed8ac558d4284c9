import Penglai.Miracl.Magnitudes

namespace Penglai.Miracl

/-! # Addition and subtraction

The routines of `mrarth0.c` on signed numbers. -/

namespace Mip

def exsign (x : Slot) (mip : Mip) : Int := if (mip.bigs x).minus then -1 else 1

def absolute (x : Slot) (mip : Mip) : Mip := mip.set x { mip.bigs x with minus := false }

def flip (x : Slot) (mip : Mip) : Mip := mip.set x { mip.bigs x with minus := !(mip.bigs x).minus }

def selected (x y z : Slot) (xgty jf : Int) (mip : Mip) : Mip × Int :=
  match jf with
  | 0 => (if xgty ≥ 0 then mip.mrPadd x y z else mip.mrPadd y x z, -1)
  | 1 => if xgty ≤ 0 then (mip.mrPsub y x z, 1) else (mip.mrPsub x y z, -1)
  | 2 => if xgty ≥ 0 then (mip.mrPsub x y z, 1) else (mip.mrPsub y x z, -1)
  | 3 => (if xgty ≥ 0 then mip.mrPadd x y z else mip.mrPadd y x z, 1)
  | _ => (mip, 0)

/-- `mr_select(x, d, y, z)`: the operands are made positive, and get their signs back
where they are not overwritten. -/
def mrSelect (x : Slot) (d : Int) (y z : Slot) (mip : Mip) : Mip :=
  let sx := mip.exsign x
  let sy := mip.exsign y
  let mip := (mip.absolute x).absolute y
  let xgty := mip.mrCompare x y
  let jf := (1 + sx) + (1 + d * sy) / 2
  let (mip, sz) := mip.selected x y z xgty jf
  let mip := if sz < 0 then mip.flip z else mip
  let mip := if x ≠ z ∧ sx < 0 then mip.flip x else mip
  if y ≠ z ∧ y ≠ x ∧ sy < 0 then mip.flip y else mip

def add (x y z : Slot) (mip : Mip) : Mip :=
  if mip.ernum.isSome then mip else mip.mrSelect x 1 y z

def subtract (x y z : Slot) (mip : Mip) : Mip :=
  if mip.ernum.isSome then mip else mip.mrSelect x (-1) y z

theorem exsign_lt_zero (x : Slot) (mip : Mip) : mip.exsign x < 0 ↔ (mip.bigs x).minus = true := by
  rw [exsign]
  split <;> simp_all

theorem bigs_absolute (x slot : Slot) (mip : Mip) :
    (mip.absolute x).bigs slot =
      if slot = x then { mip.bigs x with minus := false } else mip.bigs slot :=
  bigs_set _ _ _ _

theorem bigs_absolute_absolute (x y slot : Slot) (mip : Mip) :
    ((mip.absolute x).absolute y).bigs slot =
      if slot = x ∨ slot = y then { mip.bigs slot with minus := false } else mip.bigs slot := by
  rw [bigs_absolute, bigs_absolute, bigs_absolute]
  by_cases atY : slot = y
  · subst atY
    by_cases atX : slot = x
    · simp [atX]
    · simp [atX]
  · by_cases atX : slot = x
    · subst atX
      simp [atY]
    · simp [atX, atY]

theorem bigs_flip_if (restore : Prop) [Decidable restore] (x slot : Slot) (mip : Mip) :
    (if restore then mip.flip x else mip).bigs slot =
      if slot = x ∧ restore then { mip.bigs x with minus := !(mip.bigs x).minus }
      else mip.bigs slot := by
  by_cases holds : restore
  · simp only [holds, and_true]
    exact bigs_set _ _ _ _
  · simp only [holds, and_false, if_false]

theorem signs_restored (x y z : Slot) (big : Big) (mip : Mip) :
    (let mip' := ((mip.absolute x).absolute y).set z big
     let mip' := if x ≠ z ∧ mip.exsign x < 0 then mip'.flip x else mip'
     if y ≠ z ∧ y ≠ x ∧ mip.exsign y < 0 then mip'.flip y else mip') = mip.set z big := by
  have cleared : ∀ number : Big, number.minus = false →
      { number with minus := false } = number := by
    intro number plus
    rw [← plus]
  have flipped : ∀ number : Big, number.minus = true →
      { number with minus := true } = number := by
    intro number minus
    rw [← minus]
  apply eq_of_bigs
  · split_ifs <;> rfl
  · intro slot
    simp only [bigs_flip_if, exsign_lt_zero]
    by_cases atZ : slot = z
    · subst atZ
      rw [if_neg (fun both => both.2.1 both.1.symm), if_neg (fun both => both.2.1 both.1.symm),
        bigs_set_self, bigs_set_self]
    · rw [bigs_set_of_ne _ _ atZ, bigs_set_of_ne mip _ atZ, bigs_absolute_absolute]
      cases sign : (mip.bigs slot).minus with
      | false =>
          rw [if_neg (by grind), if_neg (by grind)]
          split
          · exact cleared _ sign
          · rfl
      | true =>
          by_cases atX : slot = x
          · subst atX
            rw [if_neg (by grind), if_pos ⟨rfl, atZ, sign⟩, bigs_set_of_ne _ _ atZ,
              bigs_absolute_absolute, if_pos (Or.inl rfl)]
            exact flipped _ sign
          · by_cases atY : slot = y
            · subst atY
              rw [if_pos ⟨rfl, atZ, atX, sign⟩, if_neg (by grind), bigs_set_of_ne _ _ atZ,
                bigs_absolute_absolute, if_pos (Or.inr rfl)]
              exact flipped _ sign
            · rw [if_neg (by grind), if_neg (by grind), if_neg (by grind)]

theorem value_eq_exsign (x : Slot) (mip : Mip) :
    mip.value x = mip.exsign x * (mip.bigs x).magnitude := by
  rw [value, Big.value, exsign]
  split
  · rw [neg_one_mul]
  · rw [one_mul]

theorem exsign_cases (x : Slot) (mip : Mip) : mip.exsign x = 1 ∨ mip.exsign x = -1 := by
  rw [exsign]
  split
  · exact Or.inr rfl
  · exact Or.inl rfl

theorem magnitude_pos {mip : Mip} {x : Slot} (normal : (mip.bigs x).Normal)
    (minus : mip.exsign x = -1) : 0 < (mip.bigs x).magnitude := by
  apply Nat.pos_of_ne_zero
  intro zero
  have plus := normal.sign (normal.magnitude_eq_zero.mp zero)
  rw [exsign, plus] at minus
  cases minus

structure Positive (mip : Mip) (x : Slot) (magnitude : Nat) : Prop where
  normal : (mip.bigs x).Normal
  plus : (mip.bigs x).minus = false
  magnitude : (mip.bigs x).magnitude = magnitude

theorem Positive.value {mip : Mip} {x : Slot} {magnitude : Nat}
    (positive : Positive mip x magnitude) : mip.value x = magnitude := by
  rw [Mip.value, Big.value, positive.plus, positive.magnitude]
  rfl

theorem absolute_clean {mip : Mip} (clean : mip.Clean) (x : Slot) : (mip.absolute x).Clean :=
  clean.set (clean x)

theorem positive_absolute {mip : Mip} {x y slot : Slot} (normal : (mip.bigs slot).Normal)
    (operand : slot = x ∨ slot = y) :
    Positive ((mip.absolute x).absolute y) slot (mip.bigs slot).magnitude := by
  have number := bigs_absolute_absolute x y slot mip
  rw [if_pos operand] at number
  constructor
  · rw [number]
    exact ⟨normal.clean, normal.top, fun _ => rfl⟩
  · rw [number]
  · rw [number]
    rfl

theorem flip_ofNat {mip : Mip} {z : Slot} {magnitude : Nat} (positive : 0 < magnitude) :
    (mip.set z (Big.ofNat magnitude)).flip z = mip.set z (Big.ofInt (-magnitude)) := by
  rw [flip, bigs_set_self, set_set, Big.ofInt, Int.natAbs_neg, Int.natAbs_natCast,
    decide_eq_true (by omega)]
  rfl

theorem compare_positive {mip : Mip} {x y : Slot} {X Y : Nat} (xPositive : Positive mip x X)
    (yPositive : Positive mip y Y) : mip.mrCompare x y = ((X : Int) - Y).sign := by
  rw [mrCompare_eq xPositive.normal yPositive.normal, xPositive.value, yPositive.value]

/-- The branches of `mr_select` on the magnitudes `X` and `Y`, for the sign `s` of the first
operand and the sign `e` that the second one counts with. -/
theorem selected_spec {mip : Mip} (clean : mip.Clean) {x y : Slot} (z : Slot) {X Y : Nat}
    (xPositive : Positive mip x X) (yPositive : Positive mip y Y) {s e : Int}
    (sUnit : s = 1 ∨ s = -1) (eUnit : e = 1 ∨ e = -1) (nonzero : s = -1 → 0 < X)
    (fits : mip.check = true → (s * X + e * Y).natAbs < wordBase ^ mip.nib) :
    (let (next, sz) := mip.selected x y z (mip.mrCompare x y) ((1 + s) + (1 + e) / 2)
     if sz < 0 then next.flip z else next) = mip.set z (Big.ofInt (s * X + e * Y)) := by
  have sum : s = e → ∀ xgty : Int,
      (if xgty ≥ 0 then mip.mrPadd x y z else mip.mrPadd y x z) =
        mip.set z (Big.ofNat (X + Y)) := by
    intro same xgty
    have room : mip.check = true → X + Y < wordBase ^ mip.nib := by
      intro check
      have := fits check
      rcases eUnit with rfl | rfl
      · rw [same] at this
        omega
      · rw [same] at this
        omega
    split
    · rw [mrPadd_eq clean xPositive.normal yPositive.normal z (by
        rw [xPositive.magnitude, yPositive.magnitude]; exact room), xPositive.magnitude,
        yPositive.magnitude]
    · rw [mrPadd_eq clean yPositive.normal xPositive.normal z (by
        rw [xPositive.magnitude, yPositive.magnitude, Nat.add_comm]; exact room),
        xPositive.magnitude, yPositive.magnitude, Nat.add_comm]
  have forward : Y ≤ X → mip.mrPsub x y z = mip.set z (Big.ofNat (X - Y)) := by
    intro le
    rw [mrPsub_eq clean yPositive.normal z (by
      rw [xPositive.magnitude, yPositive.magnitude]; exact le), xPositive.magnitude,
      yPositive.magnitude]
  have backward : X ≤ Y → mip.mrPsub y x z = mip.set z (Big.ofNat (Y - X)) := by
    intro le
    rw [mrPsub_eq clean xPositive.normal z (by
      rw [xPositive.magnitude, yPositive.magnitude]; exact le), xPositive.magnitude,
      yPositive.magnitude]
  have ordered := compare_positive xPositive yPositive
  rcases sUnit with rfl | rfl
  · rcases eUnit with rfl | rfl
    · have branch := sum rfl (mip.mrCompare x y)
      simp only [selected, Int.reduceAdd, Int.reduceDiv, branch]
      rw [if_neg (by omega), one_mul, one_mul, ← Int.natCast_add, Big.ofInt_natCast]
    · by_cases le : Y ≤ X
      · have branch : (if mip.mrCompare x y ≥ 0 then (mip.mrPsub x y z, (1 : Int))
            else (mip.mrPsub y x z, -1)) = (mip.set z (Big.ofNat (X - Y)), 1) := by
          rw [if_pos (by rw [ordered]; exact Int.sign_nonneg_iff.mpr (by omega)), forward le]
        simp only [selected, Int.reduceAdd, Int.reduceDiv, Int.reduceNeg, branch]
        rw [if_neg (by omega), show 1 * (X : Int) + -1 * Y = (X - Y : Nat) by omega,
          Big.ofInt_natCast]
      · have branch : (if mip.mrCompare x y ≥ 0 then (mip.mrPsub x y z, (1 : Int))
            else (mip.mrPsub y x z, -1)) = (mip.set z (Big.ofNat (Y - X)), -1) := by
          rw [if_neg (by rw [ordered, Int.sign_eq_neg_one_of_neg (by omega)]; omega),
            backward (by omega)]
        simp only [selected, Int.reduceAdd, Int.reduceDiv, Int.reduceNeg, branch]
        rw [if_pos (by omega), flip_ofNat (by omega)]
        congr 2
        omega
  · have nonzero := nonzero rfl
    rcases eUnit with rfl | rfl
    · by_cases le : X ≤ Y
      · have branch : (if mip.mrCompare x y ≤ 0 then (mip.mrPsub y x z, (1 : Int))
            else (mip.mrPsub x y z, -1)) = (mip.set z (Big.ofNat (Y - X)), 1) := by
          rw [if_pos (by rw [ordered]; exact Int.sign_nonpos_iff.mpr (by omega)), backward le]
        simp only [selected, Int.reduceAdd, Int.reduceDiv, Int.reduceNeg, branch]
        rw [if_neg (by omega), show -1 * (X : Int) + 1 * Y = (Y - X : Nat) by omega,
          Big.ofInt_natCast]
      · have branch : (if mip.mrCompare x y ≤ 0 then (mip.mrPsub y x z, (1 : Int))
            else (mip.mrPsub x y z, -1)) = (mip.set z (Big.ofNat (X - Y)), -1) := by
          rw [if_neg (by rw [ordered, Int.sign_eq_one_of_pos (by omega)]; omega),
            forward (by omega)]
        simp only [selected, Int.reduceAdd, Int.reduceDiv, Int.reduceNeg, branch]
        rw [if_pos (by omega), flip_ofNat (by omega)]
        congr 2
        omega
    · have branch := sum rfl (mip.mrCompare x y)
      simp only [selected, Int.reduceAdd, Int.reduceDiv, Int.reduceNeg, branch]
      rw [if_pos (by omega), flip_ofNat (by omega)]
      congr 2
      omega

/-- `mr_select` adds or subtracts signed numbers. The result may replace either operand,
and the operands may be the same number. -/
theorem mrSelect_eq {mip : Mip} (clean : mip.Clean) {x y : Slot} (xNormal : (mip.bigs x).Normal)
    (yNormal : (mip.bigs y).Normal) (z : Slot) {d : Int} (unit : d = 1 ∨ d = -1)
    (fits : mip.check = true → (mip.value x + d * mip.value y).natAbs < wordBase ^ mip.nib) :
    mip.mrSelect x d y z = mip.set z (Big.ofInt (mip.value x + d * mip.value y)) := by
  have value : mip.value x + d * mip.value y =
      mip.exsign x * (mip.bigs x).magnitude + d * mip.exsign y * (mip.bigs y).magnitude := by
    rw [value_eq_exsign x, value_eq_exsign y, mul_assoc]
  have eUnit : d * mip.exsign y = 1 ∨ d * mip.exsign y = -1 := by
    rcases unit with rfl | rfl
    · rw [one_mul]
      exact exsign_cases y mip
    · rcases exsign_cases y mip with plus | minus
      · rw [plus]
        exact Or.inr rfl
      · rw [minus]
        exact Or.inl rfl
  have selected := selected_spec (absolute_clean (absolute_clean clean x) y) z
    (positive_absolute xNormal (Or.inl rfl)) (positive_absolute yNormal (Or.inr rfl))
    (exsign_cases x mip) eUnit (magnitude_pos xNormal) (by rw [← value]; exact fits)
  rw [← value] at selected
  have restored := signs_restored x y z (Big.ofInt (mip.value x + d * mip.value y)) mip
  rw [← selected] at restored
  exact restored

theorem selected_overflow {mip : Mip} (clean : mip.Clean) {x y : Slot} (z : Slot) {X Y : Nat}
    (xPositive : Positive mip x X) (yPositive : Positive mip y Y) {s e : Int}
    (sUnit : s = 1 ∨ s = -1) (eUnit : e = 1 ∨ e = -1) (check : mip.check = true)
    (xShort : (mip.bigs x).len ≤ mip.nib) (yShort : (mip.bigs y).len ≤ mip.nib)
    (tooLarge : wordBase ^ mip.nib ≤ (s * X + e * Y).natAbs) :
    (mip.selected x y z (mip.mrCompare x y) ((1 + s) + (1 + e) / 2)).1.ernum = some .overflow := by
  have bound : ∀ {slot : Slot} {magnitude : Nat}, Positive mip slot magnitude →
      (mip.bigs slot).len ≤ mip.nib → magnitude < wordBase ^ mip.nib := by
    intro slot magnitude positive short
    rw [← positive.magnitude]
    exact (Big.magnitude_lt _).trans_le (Nat.pow_le_pow_right Big.wordBase_pos short)
  have xBound := bound xPositive xShort
  have yBound := bound yPositive yShort
  have sum : s = e → ∀ xgty : Int,
      (if xgty ≥ 0 then mip.mrPadd x y z else mip.mrPadd y x z).ernum = some .overflow := by
    intro same xgty
    have tooLarge : wordBase ^ mip.nib ≤ X + Y := by
      rcases eUnit with rfl | rfl
      · rw [same] at tooLarge
        omega
      · rw [same] at tooLarge
        omega
    split
    · exact mrPadd_overflow clean z check xShort yShort
        (by rw [xPositive.magnitude, yPositive.magnitude]; exact tooLarge)
    · exact mrPadd_overflow clean z check yShort xShort
        (by rw [xPositive.magnitude, yPositive.magnitude, Nat.add_comm]; exact tooLarge)
  rcases sUnit with rfl | rfl
  · rcases eUnit with rfl | rfl
    · exact sum rfl _
    · omega
  · rcases eUnit with rfl | rfl
    · omega
    · exact sum rfl _

theorem mrSelect_overflow {mip : Mip} (clean : mip.Clean) {x y : Slot}
    (xNormal : (mip.bigs x).Normal) (yNormal : (mip.bigs y).Normal) (z : Slot) {d : Int}
    (unit : d = 1 ∨ d = -1) (check : mip.check = true) (xShort : (mip.bigs x).len ≤ mip.nib)
    (yShort : (mip.bigs y).len ≤ mip.nib)
    (tooLarge : wordBase ^ mip.nib ≤ (mip.value x + d * mip.value y).natAbs) :
    (mip.mrSelect x d y z).ernum = some .overflow := by
  have eUnit : d * mip.exsign y = 1 ∨ d * mip.exsign y = -1 := by
    rcases unit with rfl | rfl
    · rw [one_mul]
      exact exsign_cases y mip
    · rcases exsign_cases y mip with plus | minus
      · rw [plus]
        exact Or.inr rfl
      · rw [minus]
        exact Or.inl rfl
  have short : ∀ slot, slot = x ∨ slot = y → (mip.bigs slot).len ≤ mip.nib →
      (((mip.absolute x).absolute y).bigs slot).len ≤ mip.nib := by
    intro slot operand bound
    rw [bigs_absolute_absolute, if_pos operand]
    exact bound
  rw [value_eq_exsign x, value_eq_exsign y, ← mul_assoc] at tooLarge
  have overflow := selected_overflow (absolute_clean (absolute_clean clean x) y) z
    (positive_absolute xNormal (Or.inl rfl)) (positive_absolute yNormal (Or.inr rfl))
    (exsign_cases x mip) eUnit check (short x (Or.inl rfl) xShort) (short y (Or.inr rfl) yShort)
    tooLarge
  have kept : ∀ (restore : Prop) [Decidable restore] (slot : Slot) (state : Mip),
      (if restore then state.flip slot else state).ernum = state.ernum := by
    intro restore _ slot state
    split <;> rfl
  simp only [mrSelect, kept]
  exact overflow

/-- Addition and subtraction are exact for every combination of signs and of equal
arguments: either the result alone is replaced, by the normal form of the sum or the
difference, or this number needs more than `nib` words and the error number says so. -/
theorem add_subtract_exact {mip : Mip} (clean : mip.Clean) (ready : mip.ernum = none)
    (check : mip.check = true) {x y : Slot} (xNormal : (mip.bigs x).Normal)
    (yNormal : (mip.bigs y).Normal) (xShort : (mip.bigs x).len ≤ mip.nib)
    (yShort : (mip.bigs y).len ≤ mip.nib) (z : Slot) :
    (if (mip.value x + mip.value y).natAbs < wordBase ^ mip.nib then
      mip.add x y z = mip.set z (Big.ofInt (mip.value x + mip.value y))
    else (mip.add x y z).ernum = some .overflow) ∧
    (if (mip.value x - mip.value y).natAbs < wordBase ^ mip.nib then
      mip.subtract x y z = mip.set z (Big.ofInt (mip.value x - mip.value y))
    else (mip.subtract x y z).ernum = some .overflow) := by
  have proceeds : ¬mip.ernum.isSome = true := by simp [ready]
  rw [add, subtract, if_neg proceeds, if_neg proceeds]
  have both : ∀ d : Int, d = 1 ∨ d = -1 →
      if (mip.value x + d * mip.value y).natAbs < wordBase ^ mip.nib then
        mip.mrSelect x d y z = mip.set z (Big.ofInt (mip.value x + d * mip.value y))
      else (mip.mrSelect x d y z).ernum = some .overflow := by
    intro d unit
    split
    · exact mrSelect_eq clean xNormal yNormal z unit (fun _ => by assumption)
    · exact mrSelect_overflow clean xNormal yNormal z unit check xShort yShort (by omega)
  have plus := both 1 (Or.inl rfl)
  have minus := both (-1) (Or.inr rfl)
  rw [one_mul] at plus
  rw [neg_one_mul, ← sub_eq_add_neg] at minus
  exact ⟨plus, minus⟩

theorem add_subtract_exact_mirsys :
    let mip := ((mirsys 17).set (.caller 0) (Big.ofInt (2 ^ 64 + 5))).set (.caller 1)
      (Big.ofInt (2 ^ 32 - 1))
    mip.add (.caller 0) (.caller 1) (.caller 0) =
        mip.set (.caller 0) (Big.ofInt (2 ^ 64 + 2 ^ 32 + 4)) ∧
      mip.subtract (.caller 0) (.caller 1) (.caller 1) =
        mip.set (.caller 1) (Big.ofInt (2 ^ 64 - 2 ^ 32 + 6)) := by
  intro mip
  have first : mip.bigs (.caller 0) = Big.ofInt (2 ^ 64 + 5) := rfl
  have second : mip.bigs (.caller 1) = Big.ofInt (2 ^ 32 - 1) := rfl
  have clean : mip.Clean := ((mirsys_clean 17).set (Big.ofInt_normal _).clean).set
    (Big.ofInt_normal _).clean
  have short : (Big.ofInt (2 ^ 64 + 5)).len ≤ 17 ∧ (Big.ofInt (2 ^ 32 - 1)).len ≤ 17 := by
    constructor
    · exact (Big.ofInt_normal _).len_le (by rw [Big.ofInt_magnitude]; decide)
    · exact (Big.ofInt_normal _).len_le (by rw [Big.ofInt_magnitude]; decide)
  have values : mip.value (.caller 0) = 2 ^ 64 + 5 ∧ mip.value (.caller 1) = 2 ^ 32 - 1 := by
    rw [value, value, first, second, Big.ofInt_value, Big.ofInt_value]
    exact ⟨rfl, rfl⟩
  have exact' := fun z => add_subtract_exact clean rfl rfl (first ▸ Big.ofInt_normal _)
    (second ▸ Big.ofInt_normal _) (first ▸ short.1) (second ▸ short.2) z
  rw [values.1, values.2] at exact'
  exact ⟨(exact' (.caller 0)).1, (exact' (.caller 1)).2⟩

theorem add_eq {mip : Mip} (clean : mip.Clean) (ready : mip.ernum = none) {x y : Slot}
    (xNormal : (mip.bigs x).Normal) (yNormal : (mip.bigs y).Normal) (z : Slot)
    (fits : mip.check = true → (mip.value x + mip.value y).natAbs < wordBase ^ mip.nib) :
    mip.add x y z = mip.set z (Big.ofInt (mip.value x + mip.value y)) := by
  have sum := mrSelect_eq clean xNormal yNormal z (Or.inl rfl)
    (by rw [one_mul]; exact fits)
  rw [one_mul] at sum
  rw [add, if_neg (by simp [ready]), sum]

theorem subtract_eq {mip : Mip} (clean : mip.Clean) (ready : mip.ernum = none) {x y : Slot}
    (xNormal : (mip.bigs x).Normal) (yNormal : (mip.bigs y).Normal) (z : Slot)
    (fits : mip.check = true → (mip.value x - mip.value y).natAbs < wordBase ^ mip.nib) :
    mip.subtract x y z = mip.set z (Big.ofInt (mip.value x - mip.value y)) := by
  have difference := mrSelect_eq clean xNormal yNormal z (Or.inr rfl)
    (by rw [neg_one_mul, ← sub_eq_add_neg]; exact fits)
  rw [neg_one_mul, ← sub_eq_add_neg] at difference
  rw [subtract, if_neg (by simp [ready]), difference]

/-! ## Small operands -/

theorem oneWord_eq {word : UInt32} (some : 0 < word.toNat) :
    (⟨false, 1, Function.update (Big.ofInt 0).w 0 word⟩ : Big) = Big.ofNat word.toNat := by
  apply Big.eq_ofNat_of_below rfl
  · intro i above
    exact (Function.update_of_ne (Nat.ne_of_gt above) _ _).trans
      ((Big.ofInt_normal 0).clean i (Nat.zero_le i))
  · have bound := Big.word_lt word
    exact (Big.wordCount_eq (i := 0) (by rwa [pow_zero]) (by rwa [zero_add, pow_one])).symm
  · simp [Big.below_succ]

theorem convert_eq {mip : Mip} (clean : mip.Clean) {n : Int} (small : n.natAbs < wordBase)
    (x : Slot) : mip.convert n x = mip.set x (Big.ofInt n) := by
  rw [convert, zero_eq x clean, bigs_set_self]
  split
  · rename_i zero
    rw [zero]
  · rename_i nonzero
    have word : (UInt32.ofNat n.natAbs).toNat = n.natAbs := UInt32.toNat_ofNat_of_lt' small
    have number : (⟨false, 1, Function.update (Big.ofInt 0).w 0 (UInt32.ofNat n.natAbs)⟩ : Big) =
        Big.ofNat (UInt32.ofNat n.natAbs).toNat := oneWord_eq (by omega)
    rw [word] at number
    rw [set_set, show Big.ofInt n = { Big.ofNat n.natAbs with minus := decide (n < 0) } from rfl,
      ← number]

end Mip

end Penglai.Miracl
