import Penglai.Gm.Sm2Signature

namespace Penglai.Gm

/-! # SM2 verification against SM2 signing

Every pair that `SM2_Sign` writes is accepted by `SM2_Verify` under the key of
`SM2_make_pubkey`; and `SM2_Verify` decides the signature predicate of the
standard, except where its point is the point at infinity. -/

/-! ## The private key 1 -/

def emptyMessage : Message := ⟨[], by decide⟩

def basePointKey : PublicKey where
  px := Bytes.ofNat 32 sm2Gx
  py := Bytes.ofNat 32 sm2Gy

theorem toNat_basePointKey_px : basePointKey.px.toNat = sm2Gx := Bytes.toNat_ofNat (by decide)

theorem toNat_basePointKey_py : basePointKey.py.toNat = sm2Gy := Bytes.toNat_ofNat (by decide)

theorem sm2ComputeZA_basePointKey : sm2ComputeZA basePointKey =
    Bytes.ofNat 32 0x5B32BFE35482899B195D72C09D33CCDB465B2DED883240FF91F120A68BC91DE8 := by
  decide +kernel

theorem messageDigest_emptyMessage : messageDigest emptyMessage basePointKey =
    0x6DE8668EED258C84116A0CC5796D51F750501BD42AC0B00F1A5D39F40DE61D06 := by
  rw [messageDigest, sm2ComputeZA_basePointKey]
  decide +kernel

theorem commitment_one : commitment (Bytes.ofNat 32 1) = sm2Gx := by
  rw [commitment, Bytes.toNat_ofNat (by decide)]
  rfl

theorem sm2MakePubkey_one : (sm2MakePubkey (Bytes.ofNat 32 1)).2 = basePointKey := by
  rw [sm2MakePubkey, Bytes.toNat_ofNat (by decide)]
  rfl

theorem sm2SignWith_oneKey {message : Message} {rand : Bytes 32} {e x1 : Nat}
    (digest : messageDigest message basePointKey = e) (point : commitment rand = x1)
    (checked : ¬((e + x1) % sm2N = 0 ∨ (e + x1) % sm2N + rand.toNat = sm2N) ∧
      (signProduct (Bytes.ofNat 32 1) ((e + x1) % sm2N) rand.toNat).tmod sm2N ≠ 0) :
    (sm2SignWith message (Bytes.ofNat 32 1) rand).1 = 0 := by
  rw [← digest, ← point, ← sm2MakePubkey_one] at checked
  rw [sm2SignWith_of_r _ _ _ rfl, if_neg checked.1, if_neg checked.2]

/-! ## Signatures verify -/

section Signed

variable {message : Message} {d rand : Bytes 32} {signature : Signature}
  (signed : Signed message d rand signature)

include signed

/-- The verifier's `t` vanishes only where `r + k` is the group order. -/
theorem Signed.t_ne_zero (positive : 1 ≤ rand.toNat) (bound : rand.toNat ≤ sm2N - 1) :
    (signature.r.toNat + signature.s.toNat) % sm2N ≠ 0 := by
  intro zero
  have tZero : (signature.r.toNat + signature.s.toNat : ZMod sm2N) = 0 := by
    have cast := (ZMod.natCast_eq_zero_iff _ sm2N).mpr (Nat.dvd_of_mod_eq_zero zero)
    exact_mod_cast cast
  have opposite : ((signature.r.toNat + rand.toNat : Nat) : ZMod sm2N) = 0 := by
    push_cast
    linear_combination (1 + d.toNat : ZMod sm2N) * tZero - signed.equation
  have rLt := signed.r_lt
  have rNe := signed.r_ne_zero
  exact signed.rk_ne (Nat.eq_of_dvd_of_lt_two_mul (by omega)
    ((ZMod.natCast_eq_zero_iff _ sm2N).mp opposite) (by omega))

theorem Signed.verifierPoint_eq (usable : ¬sm2N ∣ d.toNat) :
    verifierPoint (sm2MakePubkey d).2 signature = sm2Curve.mult rand.toNat sm2G := by
  rw [verifierPoint, (sm2MakePubkey_point usable).2, sm2Curve.mult_mult _ _ sm2G_valid,
    sm2Curve.mult_add _ _ sm2G_valid]
  apply mult_sm2G_congr
  rw [← ZMod.natCast_eq_natCast_iff', Nat.cast_add, Nat.cast_mul, ZMod.natCast_mod, Nat.cast_add]
  linear_combination signed.equation

theorem Signed.sm2Verify_eq_zero (usable : ¬sm2N ∣ d.toNat) (positive : 1 ≤ rand.toNat)
    (bound : rand.toNat ≤ sm2N - 1) :
    sm2Verify message (sm2MakePubkey d).2 signature = 0 := by
  have rLt := signed.r_lt
  have rNe := signed.r_ne_zero
  have sLt := signed.s_lt
  have sNe := signed.s_ne_zero
  rw [sm2Verify_eq_zero_iff, signed.verifierPoint_eq usable]
  constructor
  · constructor
    · exact (sm2MakePubkey_point usable).1
    · omega
    · omega
    · exact signed.t_ne_zero positive bound
  · exact signed.r_eq.symm

end Signed

/-- `SM2_Sign` for a private key in range: an error and no signature, or a
signature that `SM2_Verify` accepts. -/
theorem sm2SignWith_verifies (message : Message) (d rand : Bytes 32)
    (dRange : 1 ≤ d.toNat ∧ d.toNat ≤ sm2N - 2) (kRange : 1 ≤ rand.toNat ∧ rand.toNat ≤ sm2N - 1) :
    sm2SignWith message d rand = (errGenerateR, none) ∨
      sm2SignWith message d rand = (errGenerateS, none) ∨
      ∃ signature, sm2SignWith message d rand = (0, some signature) ∧
        (1 ≤ signature.r.toNat ∧ signature.r.toNat ≤ sm2N - 1) ∧
        (1 ≤ signature.s.toNat ∧ signature.s.toNat ≤ sm2N - 1) ∧
        sm2Verify message (sm2MakePubkey d).2 signature = 0 := by
  have usable : ¬sm2N ∣ d.toNat := by
    intro divides
    have large := Nat.le_of_dvd (by omega) divides
    omega
  rcases sm2SignWith_cases message d rand with badR | badS | ⟨signature, success, signed⟩
  · exact Or.inl badR
  · exact Or.inr (Or.inl badS)
  · have accepted := signed.sm2Verify_eq_zero usable kRange.1 kRange.2
    have checked := ((sm2Verify_eq_zero_iff _ _ _).mp accepted).1
    exact Or.inr (Or.inr ⟨signature, success, checked.r_range, checked.s_range, accepted⟩)

theorem sm2SignWith_verifies_one : ∃ signature,
    sm2SignWith emptyMessage (Bytes.ofNat 32 1) (Bytes.ofNat 32 1) = (0, some signature) ∧
      (1 ≤ signature.r.toNat ∧ signature.r.toNat ≤ sm2N - 1) ∧
      (1 ≤ signature.s.toNat ∧ signature.s.toNat ≤ sm2N - 1) ∧
      sm2Verify emptyMessage (sm2MakePubkey (Bytes.ofNat 32 1)).2 signature = 0 := by
  have one : (Bytes.ofNat 32 1).toNat = 1 := Bytes.toNat_ofNat (by decide)
  have success := sm2SignWith_oneKey messageDigest_emptyMessage commitment_one (by decide +kernel)
  rcases sm2SignWith_verifies emptyMessage (Bytes.ofNat 32 1) (Bytes.ofNat 32 1)
    (by rw [one]; decide) (by rw [one]; decide) with failedR | failedS | issued
  · rw [failedR] at success
    cases success
  · rw [failedS] at success
    cases success
  · exact issued

/-! ## What verification decides -/

/-- The signature predicate: checked key and numbers, and a finite point
`s G + t P` whose first coordinate gives `r`. -/
def IsSignature (message : Message) (key : PublicKey) (signature : Signature) : Prop :=
  Admissible key signature ∧ ∃ x1 y1, verifierPoint key signature = .affine x1 y1 ∧
    (messageDigest message key + x1) % sm2N = signature.r.toNat

/-- `s G + t P` vanishes in the point group: the key is the matching multiple of
`-G`. -/
def SumVanishes (key : PublicKey) (signature : Signature) : Prop :=
  signature.s.toNat • sm2Curve.toGroup sm2G +
    ((signature.r.toNat + signature.s.toNat) % sm2N) • sm2Curve.toGroup key.point = 0

theorem verifierPoint_eq_infinity_iff {key : PublicKey} (onCurve : key.OnCurve)
    (signature : Signature) :
    verifierPoint key signature = .infinity ↔ SumVanishes key signature := by
  have keyValid := PublicKey.point_valid onCurve
  have left := sm2Curve.mult_valid signature.s.toNat sm2G_valid
  have right := sm2Curve.mult_valid ((signature.r.toNat + signature.s.toNat) % sm2N) keyValid
  have sum : sm2Curve.toGroup (verifierPoint key signature) =
      signature.s.toNat • sm2Curve.toGroup sm2G +
        ((signature.r.toNat + signature.s.toNat) % sm2N) • sm2Curve.toGroup key.point := by
    rw [verifierPoint, sm2Curve.toGroup_add left right, sm2Curve.toGroup_mult _ sm2G_valid,
      sm2Curve.toGroup_mult _ keyValid]
  rw [SumVanishes, ← sum]
  constructor
  · intro equal
    rw [equal, ShortCurve.toGroup_infinity]
  · intro equal
    exact sm2Curve.toGroup_injective (sm2Curve.add_valid left right) trivial equal

/-- `SM2_Verify` decides the signature predicate exactly where it does not take
the point at infinity for a point with first coordinate zero. -/
theorem sm2Verify_iff_isSignature (message : Message) (key : PublicKey) (signature : Signature) :
    (sm2Verify message key signature = 0 ↔ IsSignature message key signature) ↔
      ¬(Admissible key signature ∧ SumVanishes key signature ∧
        messageDigest message key % sm2N = signature.r.toNat) := by
  rw [sm2Verify_eq_zero_iff, IsSignature]
  by_cases admissible : Admissible key signature
  · simp only [admissible, true_and, ← verifierPoint_eq_infinity_iff admissible.onCurve]
    cases sum : verifierPoint key signature with
    | infinity => simp [epointGet]
    | affine x1 y1 => simp [epointGet]
  · simp only [admissible, false_and, not_false_eq_true]

def vanishingSignature : Signature where
  r := Bytes.ofNat 32 0x6DE8668EED258C84116A0CC5796D51F750501BD42AC0B00F1A5D39F40DE61D06
  s := Bytes.ofNat 32 0xC90BCCB7896D39BDF74AF99D43495703C9DBD1810C65AD23C68D570F32E232A0

theorem toNat_vanishingSignature_r : vanishingSignature.r.toNat =
    0x6DE8668EED258C84116A0CC5796D51F750501BD42AC0B00F1A5D39F40DE61D06 :=
  Bytes.toNat_ofNat (by decide)

theorem toNat_vanishingSignature_s : vanishingSignature.s.toNat =
    0xC90BCCB7896D39BDF74AF99D43495703C9DBD1810C65AD23C68D570F32E232A0 :=
  Bytes.toNat_ofNat (by decide)

theorem verifierPoint_vanishingSignature :
    verifierPoint basePointKey vanishingSignature = .infinity := by
  have base : basePointKey.point = sm2Curve.mult 1 sm2G := by
    rw [PublicKey.point, toNat_basePointKey_px, toNat_basePointKey_py]
    rfl
  have order : sm2N ∣ vanishingSignature.s.toNat +
      (vanishingSignature.r.toNat + vanishingSignature.s.toNat) % sm2N * 1 := by
    rw [toNat_vanishingSignature_r, toNat_vanishingSignature_s]
    decide
  rw [verifierPoint, base, sm2Curve.mult_mult _ _ sm2G_valid, sm2Curve.mult_add _ _ sm2G_valid]
  exact (mult_sm2G_eq_infinity_iff _).mpr order

theorem sm2Verify_vanishingSignature :
    sm2Verify emptyMessage basePointKey vanishingSignature = 0 ∧
      ¬IsSignature emptyMessage basePointKey vanishingSignature := by
  constructor
  · rw [sm2Verify_eq_zero_iff, verifierPoint_vanishingSignature, messageDigest_emptyMessage,
      toNat_vanishingSignature_r]
    constructor
    · constructor
      · rw [PublicKey.OnCurve, toNat_basePointKey_px, toNat_basePointKey_py]
        decide
      · rw [toNat_vanishingSignature_r]
        decide
      · rw [toNat_vanishingSignature_s]
        decide
      · rw [toNat_vanishingSignature_r, toNat_vanishingSignature_s]
        decide
    · decide
  · rintro ⟨_, x1, y1, finite, _⟩
    rw [verifierPoint_vanishingSignature] at finite
    cases finite

end Penglai.Gm
