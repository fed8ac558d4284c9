import Penglai.Miracl.Residues
import Penglai.Miracl.Xgcd

namespace Penglai.Miracl

/-! # Setting up a modulus

`prepare_monty` puts a modulus in place: it finds minus the inverse of its lowest word,
the modulus above the words of a residue, and one in n-residue form. -/

theorem Registers.montyOn {scratch : Slot → Prop} {mip mip' : Mip} {registers : Slot → Option Nat}
    (before : Registers Big.ofNat scratch mip mip' registers) :
    Registers Big.ofNat scratch { mip with monty := true } { mip' with monty := true } registers :=
  ⟨by rw [before.rest], before.clean, before.holds, before.kept⟩

namespace Mip

def baseWords (x : Big) : Big :=
  { x with len := 2, w := Function.update (Function.update x.w 0 0) 1 1 }

/-- `prepare_monty(n)` up to the inverse of the lowest word. The remainders are kept for
quadratic residues only. -/
def lowestInverse (n : Slot) (mip : Mip) : Mip × Int :=
  let mip := (mip.zero (.w 6)).zero (.w 15)
  let (mip, _) := mip.remain n 8
  let (mip, _) := mip.remain n 9
  let mip := { mip with monty := true }.convert 1 .one
  let mip := mip.set (.w 6) (baseWords (mip.bigs (.w 6)))
  let w15 := mip.bigs (.w 15)
  let mip := mip.set (.w 15)
    { w15 with len := 1, w := Function.update w15.w 0 ((mip.bigs n).w 0) }
  mip.invmodp (.w 15) (.w 6) (.w 14)

def installModulus (n : Slot) (mip : Mip) : Mip :=
  let mip := { mip with ndash := 0 - (mip.bigs (.w 14)).w 0 }.copy n .modulus
  let mip := (mip.setCheck false).mrShift .modulus (mip.bigs .modulus).len .pR
  (mip.setCheck true).nres .one .one

def prepareMonty (n : Slot) (mip : Mip) : Mip × UInt32 :=
  if mip.ernum.isSome then (mip, 0)
  else if (mip.bigs .modulus).size ≠ 0 ∧ mip.mrCompare n .modulus = 0 then (mip, mip.ndash)
  else if (mip.bigs n).size ≤ 2 then (mip.berror .badModulus, 0)
  else
    let (mip, gcd) := mip.lowestInverse n
    if gcd ≠ 1 then (mip.berror .badModulus, 0)
    else
      let mip := mip.installModulus n
      (mip, mip.ndash)

def preparing : Slot → Prop
  | .w _ => True
  | .modulus => True
  | .pR => True
  | .one => True
  | _ => False

theorem preparing_w (i : Nat) : preparing (.w i) := trivial

theorem preparing_modulus : preparing .modulus := trivial

theorem preparing_pR : preparing .pR := trivial

theorem preparing_one : preparing .one := trivial

/-! ## The inverse of the lowest word -/

theorem baseWords_eq {x : Big} (number : x = Big.ofNat 0) : baseWords x = Big.ofNat wordBase := by
  rw [number]
  apply Big.eq_ofNat_of_below rfl
  · intro i above
    have beyond : i ≠ 0 ∧ i ≠ 1 := by
      have above' : 2 ≤ i := above
      omega
    exact (Function.update_of_ne beyond.2 _ _).trans ((Function.update_of_ne beyond.1 _ _).trans
      ((Big.ofNat_normal 0).clean i (Nat.zero_le i)))
  · exact (Big.wordCount_eq (i := 1) (by rw [pow_one]) (by decide)).symm
  · rw [baseWords, Big.below_succ, Big.below_succ, Big.below_zero]
    decide

theorem lowestWord_eq {x : Big} (number : x = Big.ofNat 0) {word : UInt32} (pos : 0 < word.toNat) :
    ({ x with len := 1, w := Function.update x.w 0 word } : Big) = Big.ofNat word.toNat := by
  rw [number]
  exact oneWord_eq pos

theorem lowestWord_odd {N : Nat} (odd : N % 2 = 1) : N % wordBase % 2 = 1 := by
  rw [Nat.mod_mod_of_dvd N (by decide)]
  exact odd

theorem lowestWord_inverse {N : Nat} (odd : N % 2 = 1) :
    ∃ r : Nat, cofactor (N % wordBase : Nat) wordBase = r ∧
      Nat.gcd (N % wordBase) wordBase = 1 ∧ wordBase ∣ (wordBase - r % wordBase) * N + 1 := by
  have isOdd := lowestWord_odd odd
  have coprime : Nat.gcd (N % wordBase) wordBase = 1 :=
    Nat.Coprime.pow_right 32 (Nat.coprime_two_right.mpr (Nat.odd_iff.mpr isOdd))
  rcases cofactor_spec (x := (N % wordBase : Nat)) (by omega) Big.wordBase_pos with ⟨low, -, cast⟩
  rcases Int.eq_ofNat_of_zero_le low with ⟨r, cofactor'⟩
  refine ⟨r, cofactor', coprime, ?_⟩
  rw [cofactor', Int.natAbs_natCast, coprime, ← Nat.cast_mul, Int.cast_natCast, Nat.cast_mul,
    ZMod.natCast_mod] at cast
  have le : r % wordBase ≤ wordBase := (Nat.mod_lt r Big.wordBase_pos).le
  rw [← ZMod.natCast_eq_zero_iff, Nat.cast_add, Nat.cast_mul, Nat.cast_sub le, ZMod.natCast_self,
    ZMod.natCast_mod]
  linear_combination -cast

structure Inverted (mip mip' : Mip) (N : Nat) : Prop where
  rest : mip' = { mip with bigs := mip'.bigs, monty := true }
  clean : mip'.Clean
  one : mip'.bigs .one = Big.ofNat 1
  inverse : ∃ r : Nat,
    mip'.bigs (.w 14) = Big.ofNat r ∧ wordBase ∣ (wordBase - r % wordBase) * N + 1
  kept : ∀ slot, ¬preparing slot → mip'.bigs slot = mip.bigs slot

theorem remain_eight {mip : Mip} (n : Slot) (ready : mip.ernum = none) :
    ∃ r, mip.remain n 8 = (mip, r) :=
  ⟨_, by rw [remain, if_neg (by simp [ready]), if_pos (Or.inr rfl)]⟩

theorem remain_nine {mip : Mip} {n : Slot} {N : Nat} (clean : mip.Clean) (ready : mip.ernum = none)
    (number : mip.bigs n = Big.ofNat N) :
    ∃ r, mip.remain n 9 = (mip.set (.w 0) (Big.ofNat (N / 9)), r) := by
  have copied : (mip.set (.w 0) (Big.ofNat N)).value (.w 0) = N :=
    value_ofNat (bigs_set_self _ _ _)
  have copiedClean : (mip.set (.w 0) (Big.ofNat N)).Clean := clean.set (Big.ofNat_normal N).clean
  have divided := subdiv_eq (x := .w 0) (n := 9) copiedClean ready
    (by rw [bigs_set_self]; exact Big.ofNat_normal N) (by decide) (by decide) (.w 0)
  have quotient : (N : Int).tdiv 9 = (N / 9 : Nat) := (Int.ofNat_tdiv N 9).symm
  rw [copied, set_set, quotient, Big.ofInt_natCast] at divided
  refine ⟨(N : Int).tmod 9, ?_⟩
  rw [remain, if_neg (by simp [ready]), if_neg (by decide), copy_eq _ _ clean, number, divided]

section Inverse

variable {mip : Mip} {n : Slot} {N : Nat} (clean : mip.Clean) (ready : mip.ernum = none)
  (number : mip.bigs n = Big.ofNat N) (outside : ¬preparing n)

include clean ready number outside

theorem lowestInverse_start (odd : N % 2 = 1) :
    ∃ mip' registers, mip.lowestInverse n = mip'.invmodp (.w 15) (.w 6) (.w 14) ∧
      Registers Big.ofNat preparing { mip with monty := true } mip' registers ∧
      registers (.w 15) = some (N % wordBase) ∧ registers (.w 6) = some wordBase ∧
      registers .one = some 1 := by
  have start : Registers Big.ofNat preparing mip mip fun _ => none :=
    Registers.start clean (fun none => by cases none)
  have zeros := (start.set (preparing_w 6) (Big.ofNat_normal 0)).set
    (preparing_w 15) (Big.ofNat_normal 0)
  have cleared : (mip.zero (.w 6)).zero (.w 15) =
      (mip.set (.w 6) (Big.ofNat 0)).set (.w 15) (Big.ofNat 0) := by
    rw [zero_eq _ clean, zero_eq _ (clean.set (Big.ofInt_normal 0).clean)]
    rfl
  generalize (mip.set (.w 6) (Big.ofNat 0)).set (.w 15) (Big.ofNat 0) = mip1 at zeros cleared
  have n1 : mip1.bigs n = Big.ofNat N := (zeros.kept n outside).trans number
  have ready1 := zeros.ready ready
  rcases remain_eight n ready1 with ⟨r8, eight⟩
  rcases remain_nine zeros.clean ready1 n1 with ⟨r9, nine⟩
  have scaled := (zeros.set (preparing_w 0) (Big.ofNat_normal (N / 9))).montyOn
  generalize mip1.set (.w 0) (Big.ofNat (N / 9)) = mip2 at nine scaled
  have one := scaled.set preparing_one (Big.ofNat_normal 1)
  have converted : { mip2 with monty := true }.convert 1 .one =
      { mip2 with monty := true }.set .one (Big.ofNat 1) := convert_eq scaled.clean (by decide) _
  generalize { mip2 with monty := true }.set .one (Big.ofNat 1) = mip3 at one converted
  have base := one.set (preparing_w 6) (Big.ofNat_normal wordBase)
  have zero6 : mip3.bigs (.w 6) = Big.ofNat 0 := one.holds rfl
  have w6 := baseWords_eq zero6
  generalize placed : mip3.set (.w 6) (Big.ofNat wordBase) = mip4 at base
  have n4 : mip4.bigs n = Big.ofNat N := (base.kept n outside).trans number
  have word : ((Big.ofNat N).w 0).toNat = N % wordBase := by
    rw [Big.toNat_word_ofNat, pow_zero, Nat.div_one]
  have nonzero : 0 < N % wordBase := by
    have isOdd := lowestWord_odd odd
    omega
  have zero15 : mip4.bigs (.w 15) = Big.ofNat 0 := base.holds rfl
  have w15 := lowestWord_eq zero15 (word ▸ nonzero)
  rw [word] at w15
  have lowest := base.set (preparing_w 15) (Big.ofNat_normal (N % wordBase))
  refine ⟨_, _, ?_, lowest, rfl, rfl, rfl⟩
  rw [lowestInverse, cleared]
  simp only [eight, nine, converted, w6, placed, n4, w15]

theorem lowestInverse_inverted (odd : N % 2 = 1) (room : 3 ≤ mip.nib) :
    Inverted mip (mip.lowestInverse n).1 N ∧ (mip.lowestInverse n).2 = 1 := by
  rcases lowestInverse_start clean ready number outside odd with
    ⟨mip', registers, result, holds, w15, w6, one⟩
  rcases lowestWord_inverse odd with ⟨r, cofactor', coprime, divides⟩
  have two : Big.wordCount wordBase = 2 := Big.wordCount_eq (i := 1) (by rw [pow_one]) (by decide)
  have nib : mip'.nib = mip.nib := holds.nib
  have single : (mip'.bigs (.w 15)).len ≤ 1 := (holds.normal w15).len_le (by
    rw [holds.magnitude w15, pow_one]
    exact Nat.mod_lt N Big.wordBase_pos)
  have inverted := invmodp_yields (x := .w 15) (y := .w 6) (z := .w 14) (Y := wordBase) holds.clean
    (holds.ready ready) (holds.normal w15) (holds.holds w6) (show ¬6 ≤ 5 by decide)
    (show ¬14 ≤ 5 by decide) (by omega) (by omega)
  rw [holds.value w15, cofactor', Int.natAbs_natCast, coprime] at inverted
  rcases inverted with ⟨yields, gcd⟩
  have length : Big.wordCount 1 = 1 := Big.wordCount_eq (i := 0) (by decide) (by decide)
  have word : ((Big.ofNat 1).w 0).toNat = 1 := by rw [Big.toNat_word_ofNat]; decide
  have size : (Big.ofNat 1).size = 1 := by
    rw [Big.size, show (Big.ofNat 1).len = 1 from length, word]
    rfl
  rw [result]
  refine ⟨⟨?_, yields.clean, ?_, ⟨r, ?_, divides⟩, ?_⟩, gcd.trans size⟩
  · rw [yields.rest, holds.rest]
  · rw [yields.kept .one (by decide) not_false]
    exact holds.holds one
  · rw [yields.result, Big.ofInt_natCast]
  · intro slot apart
    have notW : ∀ i, slot ≠ .w i := by
      rintro i rfl
      exact apart trivial
    rw [yields.kept slot (notW 14) fun inside => by
      cases slot with
      | w i => exact notW i rfl
      | _ => exact inside]
    exact holds.kept slot apart

end Inverse

/-! ## The modulus in place -/

section Install

variable {mip mip' : Mip} {n : Slot} {N : Nat} (inverted : Inverted mip mip' N)
  (ready : mip.ernum = none) (number : mip.bigs n = Big.ofNat N) (outside : ¬preparing n)
  (odd : N % 2 = 1) (large : 2 < N) (room : Big.wordCount N + 1 ≤ mip.nib)

include inverted

theorem ndash_inverse :
    wordBase ∣ (0 - (mip'.bigs (.w 14)).w 0).toNat * N + 1 := by
  rcases inverted.inverse with ⟨r, w14, divides⟩
  have word : (0 - (mip'.bigs (.w 14)).w 0).toNat = (wordBase - r % wordBase) % wordBase := by
    rw [w14, UInt32.toNat_sub, Big.toNat_word_ofNat, pow_zero, Nat.div_one, UInt32.toNat_zero,
      Nat.add_zero]
    rfl
  have same : (wordBase - r % wordBase) % wordBase * N + 1 ≡ (wordBase - r % wordBase) * N + 1
      [MOD wordBase] := Nat.ModEq.add_right _ ((Nat.mod_modEq _ _).mul_right _)
  rw [word]
  exact (same.dvd_iff (Nat.dvd_refl _)).mpr divides

include ready number outside odd large room

theorem installModulus_start :
    ∃ final, mip'.installModulus n = final.nres .one .one ∧ Reducing final N ∧
      final.check = true ∧ final.nib = mip.nib ∧
      final.bigs .pR = Big.ofNat (N * montgomeryPower N) ∧
      ∀ slot, slot ≠ .modulus → slot ≠ .pR → final.bigs slot = mip'.bigs slot := by
  have number' : mip'.bigs n = Big.ofNat N := (inverted.kept n outside).trans number
  have ndash := ndash_inverse inverted
  rw [installModulus]
  have rest := inverted.rest
  generalize placed : { mip' with ndash := 0 - (mip'.bigs (.w 14)).w 0 } = start
  have fields : start.bigs = mip'.bigs ∧ start.ernum = none ∧ start.monty = true ∧
      start.nib = mip.nib ∧ start.ndash = 0 - (mip'.bigs (.w 14)).w 0 := by
    rw [← placed]
    refine ⟨rfl, ?_, ?_, ?_, rfl⟩
    · rw [rest]
      exact ready
    · rw [rest]
    · rw [rest]
  rcases fields with ⟨bigs, ready', monty, nib, inverse⟩
  have clean : start.Clean := fun slot => by
    rw [bigs]
    exact inverted.clean slot
  have copied : start.copy n .modulus = start.set .modulus (Big.ofNat N) := by
    rw [copy_eq _ _ clean, bigs, number']
  have length : ((start.set .modulus (Big.ofNat N)).bigs .modulus).len = Big.wordCount N := by
    rw [bigs_set_self]
    rfl
  simp only [copied, length]
  have unchecked : ((start.set .modulus (Big.ofNat N)).setCheck false).Clean :=
    clean.set (Big.ofNat_normal N).clean
  have modulus : ((start.set .modulus (Big.ofNat N)).setCheck false).bigs .modulus = Big.ofNat N :=
    bigs_set_self start .modulus _
  -- The check is off here: the shifted modulus may be longer than the instance allows.
  have shifted := mrShift_up unchecked ready' (x := .modulus)
    (by rw [modulus]; exact Big.ofNat_normal N) (Big.wordCount N) .pR
    fun checked => absurd checked (by simp)
  have product : ((start.set .modulus (Big.ofNat N)).setCheck false).value .modulus *
      wordBase ^ Big.wordCount N = (N * montgomeryPower N : Nat) := by
    rw [value_ofNat modulus]
    push_cast [montgomeryPower]
    rfl
  rw [product, Big.ofInt_natCast] at shifted
  rw [shifted]
  refine ⟨_, rfl, ?_, rfl, nib, ?_, ?_⟩
  · constructor
    · exact unchecked.set (Big.ofNat_normal _).clean
    · exact ready'
    · exact monty
    · exact odd
    · exact large
    · rw [bigs_setCheck, bigs_set_of_ne _ _ (by decide), modulus]
    · rw [← inverse] at ndash
      exact ndash
    · exact room.trans_eq nib.symm
  · rw [bigs_setCheck, bigs_set_self]
  · intro slot notModulus notPR
    rw [bigs_setCheck, bigs_set_of_ne _ _ notPR, bigs_setCheck, bigs_set_of_ne _ _ notModulus,
      bigs]

theorem installModulus_prepared :
    Prepared (mip'.installModulus n) N ∧
      ∀ slot, ¬preparing slot → (mip'.installModulus n).bigs slot = mip.bigs slot := by
  rcases installModulus_start inverted ready number outside odd large room with
    ⟨final, result, reducing, check, nib, pR, others⟩
  have one : final.bigs .one = Big.ofNat 1 :=
    (others .one (by decide) (by decide)).trans inverted.one
  have single : (Big.ofNat 1).len ≤ 1 := (Big.ofNat_normal 1).len_le (by
    rw [Big.magnitude_ofNat]
    decide)
  have short : (final.bigs .one).len + 1 ≤ final.nib + Big.wordCount N := by
    have words := reducing.length_pos
    rw [one, nib]
    omega
  have converted := nres_yields reducing check (x := .one) (w := .one)
    (by rw [one]; exact Big.ofNat_normal 1) short (by decide)
  rw [value_ofNat one, Nat.cast_one, Int.cast_one] at converted
  rw [result]
  refine ⟨⟨reducing.yields converted (by decide) (by decide), ?_, ?_, ?_⟩, ?_⟩
  · rw [converted.rest]
    exact check
  · rw [converted.result, Big.ofInt_natCast]
  · rw [converted.kept .pR (by decide) (by decide), pR]
  · intro slot apart
    have ne : ∀ {other}, preparing other → slot ≠ other := by
      rintro other inside rfl
      exact apart inside
    rw [converted.kept slot (ne preparing_one) (ne (preparing_w 0)),
      others slot (ne preparing_modulus) (ne preparing_pR)]
    exact inverted.kept slot apart

end Install

/-! ## The theorem -/

/-- An instance has no modulus, or the one in place has been prepared. -/
def Standing (mip : Mip) : Prop := mip.bigs .modulus = Big.ofNat 0 ∨ ∃ N, Prepared mip N

theorem size_ofNat_le_two {N : Nat} : (Big.ofNat N).size ≤ 2 ↔ N ≤ 2 := by
  have length : (Big.ofNat N).len = Big.wordCount N := rfl
  have bound := Big.lt_pow_wordCount N
  have word := Big.toNat_word_ofNat N 0
  rw [pow_zero, Nat.div_one] at word
  rw [Big.size, length, show (Big.ofNat N).minus = false from rfl, word]
  simp only [Bool.false_eq_true, if_false]
  split
  · rename_i empty
    rw [empty, pow_zero] at bound
    omega
  · rename_i nonempty
    split
    · rename_i single
      rw [single.1, pow_one] at bound
      rw [Nat.mod_eq_of_lt bound]
      omega
    · rename_i long
      have large : 2 ^ 30 ≤ N := by
        by_contra less
        have small : N < wordBase := (Nat.not_le.mp less).trans (by decide)
        have short : Big.wordCount N ≤ 1 := wordCount_le (by rwa [pow_one])
        exact long ⟨by omega, by rw [Nat.mod_eq_of_lt small]; omega⟩
      omega

/-- `prepare_monty` refuses a modulus that is not above two, and puts any odd one in place,
whatever modulus there was before, and touches none of the callers' numbers. -/
theorem prepareMonty_exact {mip : Mip} {n : Slot} {N : Nat} (clean : mip.Clean)
    (ready : mip.ernum = none) (standing : Standing mip) (number : mip.bigs n = Big.ofNat N)
    (outside : ¬preparing n) (room : Big.wordCount N + 1 ≤ mip.nib) (roomy : 3 ≤ mip.nib) :
    if N ≤ 2 then mip.prepareMonty n = (mip.berror .badModulus, 0)
    else
      N % 2 = 1 →
        Prepared (mip.prepareMonty n).1 N ∧ (mip.prepareMonty n).2 = (mip.prepareMonty n).1.ndash ∧
          ∀ slot, ¬preparing slot → (mip.prepareMonty n).1.bigs slot = mip.bigs slot := by
  have numbers : ∀ {M}, mip.bigs .modulus = Big.ofNat M →
      (mip.mrCompare n .modulus = 0 ↔ N = M) := by
    intro M modulus
    rw [compare_ofNat number modulus, Int.sign_eq_zero_iff_zero]
    omega
  -- A modulus that is in place already is not prepared again.
  have inPlace : (mip.bigs .modulus).size ≠ 0 ∧ mip.mrCompare n .modulus = 0 → Prepared mip N := by
    rintro ⟨nonzero, same⟩
    rcases standing with empty | ⟨M, prepared⟩
    · have zero := (Big.ofNat_normal 0).size_eq_zero.mpr (Big.magnitude_ofNat 0)
      rw [empty] at nonzero
      exact absurd zero nonzero
    · rwa [(numbers prepared.modulus).mp same]
  have running : ¬mip.ernum.isSome = true := by simp [ready]
  have large : (mip.bigs n).size ≤ 2 ↔ N ≤ 2 := by rw [number, size_ofNat_le_two]
  by_cases place : (mip.bigs .modulus).size ≠ 0 ∧ mip.mrCompare n .modulus = 0
  · have prepared := inPlace place
    have above := prepared.large
    have result : mip.prepareMonty n = (mip, mip.ndash) := by
      rw [prepareMonty, if_neg running, if_pos place]
    rw [if_neg (by omega), result]
    exact fun _ => ⟨prepared, rfl, fun _ _ => rfl⟩
  · by_cases small : N ≤ 2
    · have result : mip.prepareMonty n = (mip.berror .badModulus, 0) := by
        rw [prepareMonty, if_neg running, if_neg place, if_pos (large.mpr small)]
      rw [if_pos small, result]
    · rw [if_neg small]
      intro odd
      rcases lowestInverse_inverted clean ready number outside odd roomy with ⟨inverted, gcd⟩
      rcases installModulus_prepared inverted ready number outside odd (by omega) room with
        ⟨prepared, kept⟩
      have result : mip.prepareMonty n = ((mip.lowestInverse n).1.installModulus n,
          ((mip.lowestInverse n).1.installModulus n).ndash) := by
        rw [prepareMonty, if_neg running, if_neg place, if_neg (mt large.mp small)]
        simp only [gcd, ne_eq, not_true_eq_false, if_false]
      rw [result]
      exact ⟨prepared, rfl, kept⟩

theorem prepareMonty_exact_mirsys :
    let mip := (mirsys 17).set (.caller 0) (Big.ofNat (2 ^ 256 - 189))
    Prepared (mip.prepareMonty (.caller 0)).1 (2 ^ 256 - 189) := by
  intro mip
  have number : mip.bigs (.caller 0) = Big.ofNat (2 ^ 256 - 189) := rfl
  have clean : mip.Clean := (mirsys_clean 17).set (Big.ofNat_normal (2 ^ 256 - 189)).clean
  have length : Big.wordCount (2 ^ 256 - 189) ≤ 16 := wordCount_le (by norm_num [wordBase])
  have prepared := prepareMonty_exact clean rfl (Or.inl rfl) number (fun inside => inside)
    (Nat.succ_le_succ length) (show 3 ≤ 17 by decide)
  rw [if_neg (by norm_num)] at prepared
  exact (prepared (by norm_num)).1

end Mip

end Penglai.Miracl
