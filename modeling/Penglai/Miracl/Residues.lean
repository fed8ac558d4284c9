import Penglai.Miracl.Montgomery

namespace Penglai.Miracl

/-! # Arithmetic with n-residues

The routines of `mrmonty.c` on numbers in n-residue form: each of them leaves the residue
that the same operation on the residue classes gives. -/

def nresidue (n : Nat) (a : ZMod n) : Big := Big.ofNat (residue n (montgomeryPower n) a)

theorem nresidue_normal (n : Nat) (a : ZMod n) : (nresidue n a).Normal := Big.ofNat_normal _

theorem ofNat_eq_nresidue {n r : Nat} (bound : r < n) {a : ZMod n}
    (cast : (r : ZMod n) = a * montgomeryPower n) : Big.ofNat r = nresidue n a :=
  congrArg Big.ofNat (eq_residue bound cast)

@[simp] theorem nresidue_magnitude (n : Nat) (a : ZMod n) :
    (nresidue n a).magnitude = residue n (montgomeryPower n) a := Big.magnitude_ofNat _

@[simp] theorem nresidue_value (n : Nat) (a : ZMod n) :
    (nresidue n a).value = (residue n (montgomeryPower n) a : Int) := by
  rw [nresidue, ← Big.ofInt_natCast, Big.ofInt_value]

namespace Mip

/-! ## The routines -/

def nres (x y : Slot) (mip : Mip) : Mip :=
  if mip.ernum.isSome then mip
  else if (mip.bigs .modulus).size = 0 then mip.berror .noModulus
  else
    let mip := mip.copy x y
    let mip := mip.divide y .modulus .modulus
    let mip := if (mip.bigs y).size < 0 then mip.add y .modulus y else mip
    if !mip.monty then mip
    else
      let mip := mip.setCheck false
      let mip := mip.mrShift y (mip.bigs .modulus).len (.w 0)
      let mip := mip.divide (.w 0) .modulus .modulus
      let mip := mip.setCheck true
      mip.copy (.w 0) y

def nresNegate (x w : Slot) (mip : Mip) : Mip :=
  if (mip.bigs x).size = 0 then mip.zero w
  else if mip.ernum.isSome then mip
  else mip.mrPsub .modulus x w

def nresDiv2 (x w : Slot) (mip : Mip) : Mip :=
  let mip := mip.copy x (.w 1)
  let (mip, bit) := mip.remain (.w 1) 2
  let mip := if bit ≠ 0 then mip.add (.w 1) .modulus (.w 1) else mip
  let (mip, _) := mip.subdiv (.w 1) 2 (.w 1)
  mip.copy (.w 1) w

def nresModadd (x y w : Slot) (mip : Mip) : Mip :=
  if mip.ernum.isSome then mip
  else
    let mip := mip.mrPadd x y w
    if mip.mrCompare w .modulus ≥ 0 then mip.mrPsub w .modulus w else mip

def nresModsub (x y w : Slot) (mip : Mip) : Mip :=
  if mip.ernum.isSome then mip
  else if mip.mrCompare x y ≥ 0 then mip.mrPsub x y w
  else (mip.mrPsub y x w).mrPsub .modulus w w

def nresModmult (x y w : Slot) (mip : Mip) : Mip :=
  if (mip.bigs x).len = 0 ∧ x = w then mip
  else if (mip.bigs y).len = 0 ∧ y = w then mip
  else if (mip.bigs x).len = 0 ∨ (mip.bigs y).len = 0 then mip.zero w
  else if mip.ernum.isSome then mip
  else
    let mip := mip.setCheck false
    let mip := mip.multiply x y (.w 0)
    let mip := mip.redc (.w 0) w
    mip.setCheck true

def premultSmall (x : Slot) (k : Nat) (w : Slot) (mip : Mip) : Mip :=
  match k with
  | 1 => mip.copy x w
  | 2 => mip.nresModadd x x w
  | 3 =>
      let mip := mip.nresModadd x x (.w 0)
      mip.nresModadd x (.w 0) w
  | 4 =>
      let mip := mip.nresModadd x x w
      mip.nresModadd w w w
  | 5 =>
      let mip := mip.nresModadd x x (.w 0)
      let mip := mip.nresModadd (.w 0) (.w 0) (.w 0)
      mip.nresModadd x (.w 0) w
  | 6 =>
      let mip := mip.nresModadd x x w
      let mip := mip.nresModadd w w (.w 0)
      mip.nresModadd w (.w 0) w
  | _ => mip

def nresPremult (x : Slot) (k : Int) (w : Slot) (mip : Mip) : Mip :=
  if k = 0 then mip.zero w
  else if mip.ernum.isSome then mip
  else
    let mip :=
      if k.natAbs ≤ 6 then mip.premultSmall x k.natAbs w
      else
        let mip := mip.mrPmul x (UInt32.ofNat k.natAbs) (.w 0)
        let mip := mip.divide (.w 0) .modulus .modulus
        mip.copy (.w 0) w
    if k < 0 then mip.nresNegate w w else mip

/-! ## What they compute -/

theorem magnitude_stored {mip : Mip} {n : Nat} {x : Slot} {a : ZMod n}
    (xStored : mip.bigs x = nresidue n a) :
    (mip.bigs x).Normal ∧ (mip.bigs x).magnitude = residue n (montgomeryPower n) a ∧
      mip.value x = residue n (montgomeryPower n) a := by
  rw [value, xStored]
  exact ⟨nresidue_normal n a, nresidue_magnitude n a, nresidue_value n a⟩

section Operations

variable {mip : Mip} {n : Nat} (reducing : Reducing mip n) {x y : Slot} {a b : ZMod n}

include reducing

theorem nresModadd_eq (xStored : mip.bigs x = nresidue n a) (yStored : mip.bigs y = nresidue n b)
    {w : Slot} (apart : w ≠ .modulus) :
    mip.nresModadd x y w = mip.set w (nresidue n (a + b)) := by
  have := reducing.neZero
  have aBound := residue_lt (montgomeryPower n) a
  have bBound := residue_lt (montgomeryPower n) b
  have sum := mrPadd_eq reducing.clean (x := x) (y := y)
    (by rw [xStored]; exact nresidue_normal n a) (by rw [yStored]; exact nresidue_normal n b) w
    (fun _ => reducing.double_fits (by
      rw [xStored, yStored, nresidue_magnitude, nresidue_magnitude]
      omega))
  rw [xStored, yStored, nresidue_magnitude, nresidue_magnitude] at sum
  have reduced := @reduce_once n (residue n (montgomeryPower n) a +
    residue n (montgomeryPower n) b) (by omega)
  have result := ofNat_eq_nresidue (a := a + b) reduced.1 (by
    rw [reduced.2, Nat.cast_add, cast_residue, cast_residue, add_mul])
  rw [nresModadd, if_neg (by simp [reducing.ready])]
  simp only [sum]
  rw [subtractModulus_eq (reducing.clean.set (Big.ofNat_normal _).clean)
    ((bigs_set_of_ne _ _ apart.symm).trans reducing.modulus) (bigs_set_self _ _ _), set_set, result]

theorem nresModsub_eq (xStored : mip.bigs x = nresidue n a) (yStored : mip.bigs y = nresidue n b)
    {w : Slot} (apart : w ≠ .modulus) :
    mip.nresModsub x y w = mip.set w (nresidue n (a - b)) := by
  have := reducing.neZero
  have aBound := residue_lt (montgomeryPower n) a
  have bBound := residue_lt (montgomeryPower n) b
  rcases magnitude_stored xStored with ⟨xNormal, xMagnitude, xValue⟩
  rcases magnitude_stored yStored with ⟨yNormal, yMagnitude, yValue⟩
  rw [nresModsub, if_neg (by simp [reducing.ready]), mrCompare_eq xNormal yNormal, xValue, yValue]
  split
  · rename_i enough
    rw [ge_iff_le, Int.sign_nonneg_iff] at enough
    have le : residue n (montgomeryPower n) b ≤ residue n (montgomeryPower n) a := by omega
    rw [mrPsub_eq reducing.clean yNormal w (by rw [xMagnitude, yMagnitude]; exact le), xMagnitude,
      yMagnitude, ofNat_eq_nresidue (a := a - b) (by omega)]
    rw [Nat.cast_sub le, cast_residue, cast_residue, sub_mul]
  · rename_i less
    rw [ge_iff_le, Int.sign_nonneg_iff] at less
    have le : residue n (montgomeryPower n) a ≤ residue n (montgomeryPower n) b := by omega
    have first := mrPsub_eq reducing.clean (x := y) xNormal w (by rw [xMagnitude, yMagnitude]; exact le)
    rw [xMagnitude, yMagnitude] at first
    have difference : (mip.set w (Big.ofNat (residue n (montgomeryPower n) b -
        residue n (montgomeryPower n) a))).bigs w = Big.ofNat _ := bigs_set_self _ _ _
    have modulus : (mip.set w (Big.ofNat (residue n (montgomeryPower n) b -
        residue n (montgomeryPower n) a))).bigs .modulus = Big.ofNat n :=
      (bigs_set_of_ne _ _ apart.symm).trans reducing.modulus
    have second := mrPsub_eq (reducing.clean.set (Big.ofNat_normal _).clean) (x := .modulus) (y := w)
      (by rw [difference]; exact Big.ofNat_normal _) w
      (by rw [difference, modulus, Big.magnitude_ofNat, Big.magnitude_ofNat]; omega)
    rw [difference, modulus, Big.magnitude_ofNat, Big.magnitude_ofNat, set_set] at second
    rw [first, second, ofNat_eq_nresidue (a := a - b) (by omega)]
    rw [Nat.cast_sub (by omega), Nat.cast_sub le, ZMod.natCast_self, cast_residue, cast_residue]
    ring

theorem stored_size_eq_zero (xStored : mip.bigs x = nresidue n a) :
    (mip.bigs x).size = 0 ↔ a = 0 := by
  have := reducing.neZero
  rcases magnitude_stored xStored with ⟨xNormal, xMagnitude, -⟩
  rw [xNormal.size_eq_zero, xMagnitude, residue_eq_zero reducing.coprime]

theorem stored_len_eq_zero (xStored : mip.bigs x = nresidue n a) :
    (mip.bigs x).len = 0 ↔ a = 0 := by
  have := reducing.neZero
  rcases magnitude_stored xStored with ⟨xNormal, xMagnitude, -⟩
  rw [← xNormal.magnitude_eq_zero, xMagnitude, residue_eq_zero reducing.coprime]

theorem nresNegate_eq (xStored : mip.bigs x = nresidue n a) (w : Slot) :
    mip.nresNegate x w = mip.set w (nresidue n (-a)) := by
  have := reducing.neZero
  rcases magnitude_stored xStored with ⟨xNormal, xMagnitude, -⟩
  have aBound := residue_lt (montgomeryPower n) a
  have zero := stored_size_eq_zero reducing xStored
  rw [nresNegate]
  split
  · rename_i empty
    rw [zero.mp empty, neg_zero, zero_eq w reducing.clean, nresidue, residue_zero]
    rfl
  · rename_i some
    have positive : 0 < residue n (montgomeryPower n) a :=
      Nat.pos_of_ne_zero fun none => some (zero.mpr ((residue_eq_zero reducing.coprime).mp none))
    have negated := mrPsub_eq reducing.clean (x := .modulus) xNormal w
      (by rw [reducing.modulus, xMagnitude, Big.magnitude_ofNat]; exact aBound.le)
    rw [reducing.modulus, xMagnitude, Big.magnitude_ofNat] at negated
    rw [if_neg (by simp [reducing.ready]), negated, ofNat_eq_nresidue (a := -a) (by omega)]
    rw [Nat.cast_sub aBound.le, ZMod.natCast_self, cast_residue]
    ring

theorem Reducing.store {slot : Slot} (apart : slot ≠ .modulus) (c : ZMod n) :
    Reducing (mip.set slot (nresidue n c)) n := by
  have stored := reducing.yields (yields_set reducing.clean (fun _ => False) slot
    (residue n (montgomeryPower n) c : Nat)) apart not_false
  rwa [Big.ofInt_natCast] at stored

theorem yields_stored (scratch : Big) (scratchClean : scratch.Clean) (w : Slot) (c : ZMod n) :
    Yields mip ((mip.set (.w 0) scratch).set w (nresidue n c)) (· = .w 0) w
      (residue n (montgomeryPower n) c : Nat) where
  rest := rfl
  clean := (reducing.clean.set scratchClean).set (nresidue_normal n c).clean
  result := by
    rw [bigs_set_self, Big.ofInt_natCast]
    rfl
  kept := by
    intro slot ne apart
    rw [bigs_set_of_ne _ _ ne, bigs_set_of_ne _ _ apart]

theorem nresModmult_yields (check : mip.check = true) (xStored : mip.bigs x = nresidue n a)
    (yStored : mip.bigs y = nresidue n b) (xApart : x ≠ .w 0) (yApart : y ≠ .w 0) (w : Slot) :
    Yields mip (mip.nresModmult x y w) (· = .w 0) w
      (residue n (montgomeryPower n) (a * b) : Nat) := by
  have := reducing.neZero
  have aBound := residue_lt (montgomeryPower n) a
  have bBound := residue_lt (montgomeryPower n) b
  have productBound := residue_lt (montgomeryPower n) (a * b)
  rcases magnitude_stored xStored with ⟨-, -, xValue⟩
  rcases magnitude_stored yStored with ⟨-, -, yValue⟩
  have xEmpty := stored_len_eq_zero reducing xStored
  have yEmpty := stored_len_eq_zero reducing yStored
  have unchanged : ∀ slot, (mip.bigs slot) = nresidue n (a * b) →
      Yields mip mip (· = .w 0) slot (residue n (montgomeryPower n) (a * b) : Nat) :=
    fun slot stored => ⟨rfl, reducing.clean, stored.trans (Big.ofInt_natCast _).symm,
      fun _ _ _ => rfl⟩
  rw [nresModmult]
  split
  · rename_i xNothing
    have zero := xEmpty.mp xNothing.1
    apply unchanged
    rw [← xNothing.2, xStored, zero, zero_mul]
  · split
    · rename_i yNothing
      have zero := yEmpty.mp yNothing.1
      apply unchanged
      rw [← yNothing.2, yStored, zero, mul_zero]
    · split
      · rename_i empty
        have zero : a * b = 0 := by
          rcases empty with none | none
          · rw [xEmpty.mp none, zero_mul]
          · rw [yEmpty.mp none, mul_zero]
        rw [zero_eq w reducing.clean, zero, residue_zero]
        exact yields_set reducing.clean _ w 0
      · have place : productSlot x y (.w 0) = .w 0 := if_neg (by simp)
        have product := multiply_yields (reducing.setCheck false).clean reducing.ready
          (x := x) (y := y) (z := .w 0) (by rwa [place]) (by rwa [place]) (Or.inr rfl)
        have values : (mip.setCheck false).value x * (mip.setCheck false).value y =
            ((residue n (montgomeryPower n) a * residue n (montgomeryPower n) b : Nat) : Int) := by
          rw [show (mip.setCheck false).value x = _ from xValue,
            show (mip.setCheck false).value y = _ from yValue, Nat.cast_mul]
        rw [place, values] at product
        have stored := product.result
        rw [Big.ofInt_natCast] at stored
        have bound : residue n (montgomeryPower n) a * residue n (montgomeryPower n) b <
            n * montgomeryPower n :=
          (Nat.mul_lt_mul_of_lt_of_lt aBound bBound).trans_le
            (Nat.mul_le_mul_left n (lt_montgomeryPower n).le)
        have reduced := redc_yields ((reducing.setCheck false).yields product (by decide)
          (by decide)) stored bound productBound (by
            rw [Nat.cast_mul, cast_residue, cast_residue, cast_residue]
            ring) w
        rw [if_neg (by simp [reducing.ready])]
        exact (product.trans (Or.inl rfl) reduced).checked check

theorem isUnit_two : IsUnit (2 : ZMod n) := by
  have unit := (ZMod.isUnit_iff_coprime 2 n).mpr
    (Nat.coprime_two_left.mpr (Nat.odd_iff.mpr reducing.odd))
  exact_mod_cast unit

theorem half_eq {half : ZMod n} (double : half + half = a) :
    (if (residue n (montgomeryPower n) a : Int).tmod 2 ≠ 0 then
      (residue n (montgomeryPower n) a : Int) + n else residue n (montgomeryPower n) a).tdiv 2 =
      (residue n (montgomeryPower n) half : Nat) := by
  have := reducing.neZero
  have odd := reducing.odd
  have bound := residue_lt (montgomeryPower n) a
  have cast := cast_residue (montgomeryPower n) a
  generalize residue n (montgomeryPower n) a = A at bound cast ⊢
  have halved : ∀ {h : Nat}, h < n → ((2 * h : Nat) : ZMod n) = A →
      h = residue n (montgomeryPower n) half := by
    intro h less twice
    apply eq_residue less
    apply (isUnit_two reducing).mul_left_cancel
    push_cast at twice
    rw [twice, cast, ← double]
    ring
  have remainder : (A : Int).tmod 2 = (A % 2 : Nat) := (Int.ofNat_tmod A 2).symm
  split
  · rename_i isOdd
    have rest : (A + n) % 2 = 0 := by omega
    have quotient : ((A : Int) + n).tdiv 2 = ((A + n) / 2 : Nat) := by
      rw [Int.ofNat_tdiv, Nat.cast_add]
      rfl
    rw [quotient, halved (h := (A + n) / 2) (by omega)]
    rw [show 2 * ((A + n) / 2) = A + n by omega, Nat.cast_add, ZMod.natCast_self, add_zero]
  · rename_i isEven
    have rest : A % 2 = 0 := by omega
    have quotient : (A : Int).tdiv 2 = (A / 2 : Nat) := (Int.ofNat_tdiv A 2).symm
    rw [quotient, halved (h := A / 2) (by omega)]
    rw [show 2 * (A / 2) = A by omega]

theorem nresDiv2_yields {half : ZMod n} (double : half + half = a)
    (xStored : mip.bigs x = nresidue n a) (w : Slot) :
    Yields mip (mip.nresDiv2 x w) (· = .w 1) w (residue n (montgomeryPower n) half : Nat) := by
  have := reducing.neZero
  have bound := residue_lt (montgomeryPower n) a
  have half' := half_eq reducing double
  rcases magnitude_stored xStored with ⟨xNormal, xMagnitude, xValue⟩
  have copied : (mip.set (.w 1) (mip.bigs x)).Clean := reducing.clean.set xNormal.clean
  have number : (mip.set (.w 1) (mip.bigs x)).bigs (.w 1) = mip.bigs x := bigs_set_self _ _ _
  have modulus : (mip.set (.w 1) (mip.bigs x)).bigs .modulus = Big.ofNat n :=
    (bigs_set_of_ne _ _ (by decide)).trans reducing.modulus
  have values : (mip.set (.w 1) (mip.bigs x)).value (.w 1) = residue n (montgomeryPower n) a ∧
      (mip.set (.w 1) (mip.bigs x)).value .modulus = n := by
    rw [value, value, number, modulus, ← Big.ofInt_natCast, Big.ofInt_value]
    exact ⟨xValue, rfl⟩
  have sum := add_eq copied reducing.ready (x := .w 1) (y := .modulus)
    (by rw [number]; exact xNormal) (by rw [modulus]; exact Big.ofNat_normal n) (.w 1) (fun _ => by
      rw [values.1, values.2]
      exact reducing.double_fits (by omega))
  have evened : (if (residue n (montgomeryPower n) a : Int).tmod 2 ≠ 0 then
      (mip.set (.w 1) (mip.bigs x)).add (.w 1) .modulus (.w 1)
    else mip.set (.w 1) (mip.bigs x)) =
      mip.set (.w 1) (Big.ofInt (if (residue n (montgomeryPower n) a : Int).tmod 2 ≠ 0 then
        (residue n (montgomeryPower n) a : Int) + n else residue n (montgomeryPower n) a)) := by
    rw [values.1, values.2, set_set] at sum
    split
    · exact sum
    · rw [xStored, Big.ofInt_natCast]
      rfl
  rw [nresDiv2]
  simp only [copy_eq x (.w 1) reducing.clean,
    remain_two copied reducing.ready (by rw [number]; exact xNormal), values.1, evened]
  rw [subdiv_eq (reducing.clean.set (Big.ofInt_normal _).clean) reducing.ready
    (by rw [bigs_set_self]; exact Big.ofInt_normal _) (by decide) (by decide)]
  simp only [value, bigs_set_self, Big.ofInt_value, set_set, half', Big.ofInt_natCast]
  exact yields_copied reducing.clean (.w 1) _ w

theorem divideModulus_yields {X : Int} (number : mip.bigs x = Big.ofInt X) (apart : x ≠ .modulus)
    (room : mip.check = true → (mip.bigs x).len + 1 ≤ mip.nib + Big.wordCount n) :
    Yields mip (mip.divide x .modulus .modulus) (· = .w 0) x (X.tmod n) := by
  have large := reducing.large
  have modulusValue : mip.value .modulus = n := by
    rw [value, reducing.modulus, ← Big.ofInt_natCast, Big.ofInt_value]
  have length : (mip.bigs .modulus).len = Big.wordCount n := by rw [reducing.modulus]; rfl
  have divided := divide_divided reducing.clean reducing.ready (x := x) (y := .modulus)
    (z := .modulus) (by rw [number]; exact Big.ofInt_normal X)
    (by rw [reducing.modulus]; exact Big.ofNat_normal n) apart
    (by
      rw [length, ← Nat.pos_iff_ne_zero, Big.lt_wordCount, pow_zero]
      omega)
    (by decide) (by decide) (by rw [length]; exact room)
  have remainder := divided.remainder apart.symm
  rw [modulusValue, value, number, Big.ofInt_value] at remainder
  constructor
  · exact divided.rest
  · exact divided.clean
  · exact remainder
  · intro slot ne scratch
    by_cases isModulus : slot = .modulus
    · rw [isModulus]
      exact divided.divisor
    · exact divided.kept slot ne isModulus scratch

theorem premultSmall_yields {k : Nat} (some : 0 < k) (few : k ≤ 6)
    (xStored : mip.bigs x = nresidue n a) (xApart : x ≠ .w 0) {w : Slot} (wApart : w ≠ .w 0)
    (notModulus : w ≠ .modulus) :
    Yields mip (mip.premultSmall x k w) (· = .w 0) w
      (residue n (montgomeryPower n) (k * a) : Nat) := by
  have double := fun {z : Slot} (zApart : z ≠ .modulus) =>
    nresModadd_eq reducing xStored xStored zApart
  have direct : ∀ c : ZMod n, Yields mip (mip.set w (nresidue n c)) (· = .w 0) w
      (residue n (montgomeryPower n) c : Nat) := by
    intro c
    have stored := yields_stored reducing (mip.bigs (.w 0)) (reducing.clean _) w c
    rwa [set_bigs] at stored
  have inW0 : ∀ c, (mip.set (.w 0) (nresidue n c)).bigs x = nresidue n a := fun c =>
    (bigs_set_of_ne _ _ xApart).trans xStored
  have notW0 : (Slot.w 0) ≠ .modulus := by decide
  interval_cases k
  · rw [premultSmall, copy_eq x w reducing.clean, xStored, Nat.cast_one, one_mul]
    exact direct a
  · rw [premultSmall, double notModulus, Nat.cast_ofNat, two_mul]
    exact direct _
  · have triple := nresModadd_eq (reducing.store notW0 (a + a)) (inW0 _) (bigs_set_self _ _ _)
      notModulus
    have sum : ((3 : Nat) : ZMod n) * a = a + (a + a) := by push_cast; ring
    rw [premultSmall, double notW0, triple, sum]
    exact yields_stored reducing _ (nresidue_normal n _).clean w _
  · have quadruple := nresModadd_eq (reducing.store notModulus (a + a)) (bigs_set_self _ _ _)
      (bigs_set_self _ _ _) notModulus
    have sum : ((4 : Nat) : ZMod n) * a = a + a + (a + a) := by push_cast; ring
    rw [premultSmall, double notModulus, quadruple, set_set, sum]
    exact direct _
  · have quadruple := nresModadd_eq (reducing.store notW0 (a + a)) (bigs_set_self _ _ _)
      (bigs_set_self _ _ _) notW0
    have quintuple := nresModadd_eq (reducing.store notW0 (a + a + (a + a))) (inW0 _)
      (bigs_set_self _ _ _) notModulus
    have sum : ((5 : Nat) : ZMod n) * a = a + (a + a + (a + a)) := by push_cast; ring
    rw [set_set] at quadruple
    rw [premultSmall, double notW0, quadruple, quintuple, sum]
    exact yields_stored reducing _ (nresidue_normal n _).clean w _
  · have quadruple := nresModadd_eq (reducing.store notModulus (a + a)) (bigs_set_self _ _ _)
      (bigs_set_self _ _ _) notW0
    have sextuple := nresModadd_eq ((reducing.store notModulus (a + a)).store notW0 (a + a + (a + a)))
      ((bigs_set_of_ne _ _ wApart).trans (bigs_set_self _ _ _)) (bigs_set_self _ _ _) notModulus
    have sum : ((6 : Nat) : ZMod n) * a = a + a + (a + a + (a + a)) := by push_cast; ring
    rw [premultSmall, double notModulus, quadruple, sextuple, set_comm mip wApart, set_set, sum]
    exact yields_stored reducing _ (nresidue_normal n _).clean w _

theorem premultLarge_yields {k : Nat} (small : k < wordBase)
    (xStored : mip.bigs x = nresidue n a) (w : Slot) :
    Yields mip (((mip.mrPmul x (UInt32.ofNat k) (.w 0)).divide (.w 0) .modulus .modulus).copy
        (.w 0) w) (· = .w 0) w
      (residue n (montgomeryPower n) (k * a) : Nat) := by
  have := reducing.neZero
  have bound := residue_lt (montgomeryPower n) a
  rcases magnitude_stored xStored with ⟨xNormal, xMagnitude, xValue⟩
  have word : (UInt32.ofNat k).toNat = k := UInt32.toNat_ofNat_of_lt' small
  have short : residue n (montgomeryPower n) a * k < wordBase ^ (Big.wordCount n + 1) := by
    rw [pow_succ]
    exact Nat.mul_lt_mul_of_lt_of_lt (bound.trans (lt_montgomeryPower n)) small
  have product := mrPmul_eq reducing.clean xNormal (UInt32.ofNat k) (.w 0) fun _ => by
    rw [word, xMagnitude]
    exact short.trans_le (Nat.pow_le_pow_right Big.wordBase_pos
      (reducing.room.trans (Nat.le_max_left _ _)))
  rw [word, xValue, ← Nat.cast_mul] at product
  have multiplied := yields_set reducing.clean (· = .w 0) (.w 0)
    ((residue n (montgomeryPower n) a * k : Nat) : Int)
  have length : ((mip.set (.w 0) (Big.ofInt ((residue n (montgomeryPower n) a * k : Nat) :
      Int))).bigs (.w 0)).len ≤ Big.wordCount n + 1 := by
    rw [bigs_set_self]
    apply (Big.ofInt_normal _).len_le
    rwa [Big.ofInt_magnitude, Int.natAbs_natCast]
  have room := reducing.room
  have some := reducing.length_pos
  have divided := divideModulus_yields (reducing.yields multiplied (by decide) (by decide))
    (bigs_set_self _ _ _) (by decide) fun _ => by
      rw [set_nib]
      omega
  rw [product]
  have remainder : ((residue n (montgomeryPower n) a * k : Nat) : Int).tmod n =
      (residue n (montgomeryPower n) (k * a) : Nat) := by
    rw [← Int.ofNat_tmod, eq_residue (a := (k : ZMod n) * a) (Nat.mod_lt _ reducing.positive)]
    rw [ZMod.natCast_mod, Nat.cast_mul, cast_residue]
    ring
  rw [remainder] at divided
  exact (multiplied.trans (Or.inl rfl) divided).trans (Or.inl rfl)
    (copy_yields divided.clean divided.result _ w)

theorem nresPremult_yields {k : Int} (small : k.natAbs < wordBase)
    (xStored : mip.bigs x = nresidue n a) (xApart : x ≠ .w 0) {w : Slot} (wApart : w ≠ .w 0)
    (notModulus : w ≠ .modulus) :
    Yields mip (mip.nresPremult x k w) (· = .w 0) w
      (residue n (montgomeryPower n) (k * a) : Nat) := by
  rw [nresPremult]
  split
  · rename_i zero
    rw [zero_eq w reducing.clean, zero, Int.cast_zero, zero_mul, residue_zero]
    exact yields_set reducing.clean _ w 0
  · rename_i nonzero
    have magnitude : Yields mip
        (if k.natAbs ≤ 6 then mip.premultSmall x k.natAbs w
        else ((mip.mrPmul x (UInt32.ofNat k.natAbs) (.w 0)).divide (.w 0) .modulus .modulus).copy
          (.w 0) w) (· = .w 0) w
        (residue n (montgomeryPower n) (k.natAbs * a) : Nat) := by
      split
      · rename_i few
        exact premultSmall_yields reducing (by omega) few xStored xApart wApart notModulus
      · exact premultLarge_yields reducing small xStored w
    have sign : (k : ZMod n) = if k < 0 then -(k.natAbs : ZMod n) else k.natAbs := by
      split
      · rename_i negative
        rw [← Int.cast_natCast, ← Int.cast_neg]
        congr 1
        omega
      · rw [← Int.cast_natCast]
        congr 1
        omega
    rw [if_neg (by simp [reducing.ready]), sign]
    simp only
    generalize (if k.natAbs ≤ 6 then mip.premultSmall x k.natAbs w else _) = mip' at magnitude ⊢
    split
    · have stored := magnitude.result
      rw [Big.ofInt_natCast] at stored
      have reducing' := reducing.yields magnitude notModulus (by decide)
      have negated := nresNegate_eq reducing' stored w
      have final := yields_set reducing'.clean (· = Slot.w 0) w
        (residue n (montgomeryPower n) (-(k.natAbs * a)) : Nat)
      rw [negated, neg_mul]
      rw [Big.ofInt_natCast] at final
      exact magnitude.trans (Or.inr rfl) final
    · exact magnitude

theorem addModulus_eq {X : Int} (number : mip.bigs x = Big.ofInt (X.tmod n)) :
    ∃ r : Nat, r < n ∧ (r : ZMod n) = X ∧
      (if (mip.bigs x).size < 0 then mip.add x .modulus x else mip) = mip.set x (Big.ofNat r) := by
  have positive := reducing.positive
  have normal : (mip.bigs x).Normal := by rw [number]; exact Big.ofInt_normal _
  have values : mip.value x = X.tmod n ∧ mip.value .modulus = n := by
    rw [value, value, number, reducing.modulus, ← Big.ofInt_natCast, Big.ofInt_value,
      Big.ofInt_value]
    exact ⟨rfl, rfl⟩
  have cast : ((X.tmod n : Int) : ZMod n) = X := by
    have split := congrArg (Int.cast (R := ZMod n)) (Int.tmod_add_mul_tdiv X n)
    push_cast at split
    rwa [ZMod.natCast_self, zero_mul, add_zero] at split
  have upper := Int.tmod_lt_of_pos X (show (0 : Int) < n by omega)
  have lower := Int.lt_tmod_of_pos X (show (0 : Int) < n by omega)
  have sign : (mip.bigs x).size < 0 ↔ X.tmod n < 0 := by
    rw [normal.size_lt_zero, number, Big.ofInt_value]
  have sum := add_eq reducing.clean reducing.ready normal (y := .modulus)
    (by rw [reducing.modulus]; exact Big.ofNat_normal n) x
  rw [values.1, values.2] at sum
  generalize X.tmod n = r at *
  split
  · rename_i negative
    refine ⟨(r + n).toNat, by omega, ?_, ?_⟩
    · rw [← Int.cast_natCast, Int.toNat_of_nonneg (by omega)]
      push_cast
      rw [cast, ZMod.natCast_self, add_zero]
    · rw [sum fun _ => reducing.double_fits (by omega), ← Big.ofInt_natCast,
        Int.toNat_of_nonneg (by omega)]
  · rename_i positive'
    refine ⟨r.toNat, by omega, ?_, ?_⟩
    · rw [← Int.cast_natCast, Int.toNat_of_nonneg (by omega), cast]
    · rw [← Big.ofInt_natCast, Int.toNat_of_nonneg (by omega), ← number, set_bigs]

theorem nresShift_yields (check : mip.check = true) {r : Nat} (number : mip.bigs x = Big.ofNat r)
    (w : Slot) :
    Yields mip ((((mip.setCheck false).mrShift x (mip.bigs .modulus).len (.w 0)).divide (.w 0)
        .modulus .modulus).setCheck true |>.copy (.w 0) w) (· = .w 0) w
      (residue n (montgomeryPower n) r : Nat) := by
  have length : (mip.bigs .modulus).len = Big.wordCount n := by rw [reducing.modulus]; rfl
  have value : (mip.setCheck false).value x = r := by
    rw [Mip.value, bigs_setCheck, number, ← Big.ofInt_natCast, Big.ofInt_value]
  have shifted := mrShift_up (reducing.setCheck false).clean reducing.ready (x := x)
    (by rw [bigs_setCheck, number]; exact Big.ofNat_normal r) (Big.wordCount n) (.w 0)
    fun checked => absurd checked (by simp)
  have power : (r : Int) * wordBase ^ Big.wordCount n = (r * montgomeryPower n : Nat) := by
    push_cast [montgomeryPower]
    rfl
  rw [value, power] at shifted
  have multiplied := yields_set (reducing.setCheck false).clean (· = Slot.w 0) (.w 0)
    ((r * montgomeryPower n : Nat) : Int)
  have divided := divideModulus_yields ((reducing.setCheck false).yields multiplied (by decide)
    (by decide)) (bigs_set_self _ _ _) (by decide) fun checked => absurd checked (by simp)
  have remainder : ((r * montgomeryPower n : Nat) : Int).tmod n =
      (residue n (montgomeryPower n) r : Nat) := by
    rw [← Int.ofNat_tmod, eq_residue (a := (r : ZMod n)) (Nat.mod_lt _ reducing.positive)]
    rw [ZMod.natCast_mod, Nat.cast_mul]
  rw [remainder] at divided
  rw [length, shifted]
  have stored := (multiplied.trans (Or.inl rfl) divided).checked check
  exact stored.trans (Or.inl rfl) (copy_yields stored.clean stored.result _ w)

theorem nres_yields (check : mip.check = true) (normal : (mip.bigs x).Normal)
    (room : (mip.bigs x).len + 1 ≤ mip.nib + Big.wordCount n) {w : Slot} (notModulus : w ≠ .modulus) :
    Yields mip (mip.nres x w) (· = .w 0) w
      (residue n (montgomeryPower n) (mip.value x : Int) : Nat) := by
  have large := reducing.large
  have some : (mip.bigs .modulus).size ≠ 0 := by
    rw [reducing.modulus]
    intro zero
    have none := (Big.ofNat_normal n).size_eq_zero.mp zero
    rw [Big.magnitude_ofNat] at none
    omega
  have copied := yields_set reducing.clean (· = Slot.w 0) w (mip.value x)
  have reducing1 := reducing.yields copied notModulus (by decide)
  have length : (Big.ofInt (mip.value x)).len = (mip.bigs x).len := by
    rw [value, ← normal.eq_ofInt]
  have divided := divideModulus_yields reducing1 (bigs_set_self _ _ _) notModulus fun _ => by
    rw [bigs_set_self, length, set_nib]
    exact room
  rw [nres, if_neg (by simp [reducing.ready]), if_neg some]
  have number : mip.bigs x = Big.ofInt (mip.value x) := normal.eq_ofInt
  simp only [copy_eq x w reducing.clean]
  rw [number]
  have reducing2 := reducing1.yields divided notModulus (by decide)
  rcases addModulus_eq reducing2 divided.result with ⟨r, -, cast, added⟩
  have added' := yields_set divided.clean (· = Slot.w 0) w (r : Int)
  rw [Big.ofInt_natCast] at added'
  have reducing3 := reducing2.yields added' notModulus (by decide)
  have check3 : ((divide w .modulus .modulus (mip.set w (Big.ofInt (mip.value x)))).set w
      (Big.ofNat r)).check = true := by
    rw [set_check, divided.rest]
    exact check
  have shifted := nresShift_yields reducing3 check3 (bigs_set_self _ _ _) w
  rw [cast] at shifted
  simp only [added, reducing3.monty, Bool.not_true, Bool.false_eq_true, if_false]
  exact ((copied.trans (Or.inr rfl) divided).trans (Or.inr rfl) added').trans (Or.inr rfl) shifted

end Operations

/-! ## All the way -/

theorem Prepared.yields {mip mip' : Mip} {n : Nat} (prepared : Prepared mip n)
    {scratch : Slot → Prop} {z : Slot} {result : Int} (yields : Yields mip mip' scratch z result)
    (notModulus : z ≠ .modulus) (notOne : z ≠ .one) (notPR : z ≠ .pR)
    (kept : ¬scratch .modulus ∧ ¬scratch .one ∧ ¬scratch .pR) : Prepared mip' n where
  toReducing := prepared.toReducing.yields yields notModulus kept.1
  check := by
    rw [yields.rest]
    exact prepared.check
  one := (yields.kept _ notOne.symm kept.2.1).trans prepared.one
  pR := (yields.kept _ notPR.symm kept.2.2).trans prepared.pR

theorem redc_stored {mip : Mip} {n : Nat} (reducing : Reducing mip n) {x : Slot} {a : Int}
    (xStored : mip.bigs x = nresidue n a) (y : Slot) :
    Yields mip (mip.redc x y) (· = .w 0) y (a % n) := by
  have := reducing.neZero
  have positive := reducing.positive
  have bound := residue_lt (montgomeryPower n) (a : ZMod n)
  have nonneg := Int.emod_nonneg a (show (n : Int) ≠ 0 by omega)
  have less := Int.emod_lt_of_pos a (show (0 : Int) < n by omega)
  have remainder : a % n = ((a % n).toNat : Int) := (Int.toNat_of_nonneg nonneg).symm
  have cast : (((a % n).toNat : Nat) : ZMod n) = a := by
    rw [← Int.cast_natCast, Int.toNat_of_nonneg nonneg, ZMod.intCast_mod]
  rw [remainder]
  apply redc_yields reducing xStored _ (by omega)
  · rw [cast, cast_residue]
  · exact bound.trans_le (Nat.le_mul_of_pos_right n (Nat.pow_pos Big.wordBase_pos))

theorem redc_set {mip : Mip} {n : Nat} (reducing : Reducing mip n) (check : mip.check = true)
    {w : Slot} (apart : w ≠ .modulus) (a : Int) (z : Slot) :
    ((mip.set w (nresidue n a)).redc w z).bigs z = Big.ofInt (a % n) ∧
      ((mip.set w (nresidue n a)).redc w z).check = true := by
  have back := redc_stored (reducing.store apart a) (bigs_set_self mip w (nresidue n a)) z
  refine ⟨back.result, ?_⟩
  rw [back.rest]
  exact check

theorem nres_nres {mip : Mip} {n : Nat} (reducing : Reducing mip n) (check : mip.check = true)
    {x y u v : Slot} (xNormal : (mip.bigs x).Normal) (yNormal : (mip.bigs y).Normal)
    (xRoom : (mip.bigs x).len + 1 ≤ mip.nib + Big.wordCount n)
    (yRoom : (mip.bigs y).len + 1 ≤ mip.nib + Big.wordCount n) (uApart : u ≠ .modulus ∧ u ≠ .w 0)
    (vApart : v ≠ .modulus ∧ v ≠ .w 0) (distinct : u ≠ v) (yKept : y ≠ u ∧ y ≠ .w 0) :
    let mip' := (mip.nres x u).nres y v
    Reducing mip' n ∧ mip'.check = true ∧ mip'.bigs u = nresidue n (mip.value x : Int) ∧
      mip'.bigs v = nresidue n (mip.value y : Int) := by
  have first := nres_yields reducing check xNormal xRoom uApart.1
  have kept := first.kept y yKept.1 yKept.2
  have check1 : (mip.nres x u).check = true := by
    rw [first.rest]
    exact check
  have nib1 : (mip.nres x u).nib = mip.nib := by rw [first.rest]
  have reducing1 := reducing.yields first uApart.1 (by decide)
  have second := nres_yields reducing1 check1 (x := y) (by rw [kept]; exact yNormal)
    (by rw [kept, nib1]; exact yRoom) vApart.1
  refine ⟨reducing1.yields second vApart.1 (by decide), ?_, ?_, ?_⟩
  · rw [second.rest]
    exact check1
  · rw [second.kept u distinct uApart.2, first.result, Big.ofInt_natCast]
    rfl
  · rw [second.result, Big.ofInt_natCast, value, kept]
    rfl

/-- Two numbers converted, multiplied, added or subtracted as n-residues, and the result
converted back: what comes out is the remainder of the product, the sum or the difference,
and the check is on again. -/
theorem residues_exact {mip : Mip} {n : Nat} (reducing : Reducing mip n)
    (check : mip.check = true) {x y u v w : Slot} (xNormal : (mip.bigs x).Normal)
    (yNormal : (mip.bigs y).Normal) (xRoom : (mip.bigs x).len + 1 ≤ mip.nib + Big.wordCount n)
    (yRoom : (mip.bigs y).len + 1 ≤ mip.nib + Big.wordCount n) (uApart : u ≠ .modulus ∧ u ≠ .w 0)
    (vApart : v ≠ .modulus ∧ v ≠ .w 0) (wApart : w ≠ .modulus) (distinct : u ≠ v)
    (yKept : y ≠ u ∧ y ≠ .w 0) (z : Slot) :
    let mip' := (mip.nres x u).nres y v
    let product := (mip'.nresModmult u v w).redc w z
    let sum := (mip'.nresModadd u v w).redc w z
    let difference := (mip'.nresModsub u v w).redc w z
    (product.bigs z = Big.ofInt (mip.value x * mip.value y % n) ∧ product.check = true) ∧
    (sum.bigs z = Big.ofInt ((mip.value x + mip.value y) % n) ∧ sum.check = true) ∧
    (difference.bigs z = Big.ofInt ((mip.value x - mip.value y) % n) ∧
      difference.check = true) := by
  rcases nres_nres reducing check xNormal yNormal xRoom yRoom uApart vApart distinct yKept with
    ⟨reducing', check', uStored, vStored⟩
  generalize (mip.nres x u).nres y v = mip' at reducing' check' uStored vStored ⊢
  simp only
  refine ⟨?_, ?_, ?_⟩
  · have product := nresModmult_yields reducing' check' uStored vStored uApart.2 vApart.2 w
    have stored := product.result
    rw [Big.ofInt_natCast, ← Int.cast_mul] at stored
    have back := redc_stored (reducing'.yields product wApart (by decide)) stored z
    refine ⟨back.result, ?_⟩
    rw [back.rest, product.rest]
    exact check'
  · rw [nresModadd_eq reducing' uStored vStored wApart, ← Int.cast_add]
    exact redc_set reducing' check' wApart _ z
  · rw [nresModsub_eq reducing' uStored vStored wApart, ← Int.cast_sub]
    exact redc_set reducing' check' wApart _ z

/-- Modulo `2 ^ 32 - 1`, minus the inverse of the lowest word is one. -/
theorem residues_exact_oneWord :
    let mip := (({ mirsys 17 with ndash := 1 }.set .modulus (Big.ofNat (2 ^ 32 - 1))).set
      (.caller 0) (Big.ofInt (-5))).set (.caller 1) (Big.ofInt 7)
    let mip' := (mip.nres (.caller 0) (.w 1)).nres (.caller 1) (.w 2)
    ((mip'.nresModmult (.w 1) (.w 2) (.w 3)).redc (.w 3) (.caller 2)).bigs (.caller 2) =
      Big.ofInt (2 ^ 32 - 36) := by
  intro mip
  have clean : mip.Clean := (((mirsys_clean 17).set (Big.ofNat_normal _).clean).set
    (Big.ofInt_normal _).clean).set (Big.ofInt_normal _).clean
  have length : Big.wordCount (2 ^ 32 - 1) = 1 := Big.wordCount_eq (by decide) (by decide)
  have reducing : Reducing mip (2 ^ 32 - 1) := {
    clean := clean
    ready := rfl
    monty := rfl
    odd := by decide
    large := by decide
    modulus := rfl
    inverse := by decide
    room := by rw [length]; decide }
  have first : (mip.bigs (.caller 0)) = Big.ofInt (-5) := rfl
  have second : (mip.bigs (.caller 1)) = Big.ofInt 7 := rfl
  have short : ∀ {value : Int}, value.natAbs < wordBase ^ 1 →
      (Big.ofInt value).len + 1 ≤ mip.nib + Big.wordCount (2 ^ 32 - 1) := by
    intro value small
    have bound := (Big.ofInt_normal value).len_le (by rwa [Big.ofInt_magnitude])
    have nib : mip.nib = 17 := rfl
    omega
  have exact' := residues_exact reducing rfl (x := .caller 0) (y := .caller 1) (u := .w 1)
    (v := .w 2) (w := .w 3) (by rw [first]; exact Big.ofInt_normal _)
    (by rw [second]; exact Big.ofInt_normal _) (by rw [first]; exact short (by decide))
    (by rw [second]; exact short (by decide)) (by decide) (by decide) (by decide) (by decide)
    (by decide) (.caller 2)
  rw [value, value, first, second, Big.ofInt_value, Big.ofInt_value] at exact'
  exact exact'.1.1

end Mip

end Penglai.Miracl
