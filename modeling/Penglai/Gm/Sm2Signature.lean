import Penglai.Gm.Sm2

namespace Penglai.Gm

/-! # What SM2 signatures are

The signer's and the verifier's arithmetic read modulo the group order: a
published pair satisfies one linear equation in the secret numbers, and that
equation is what makes the verifier's point the signer's. -/

instance : Fact sm2N.Prime := ⟨sm2N_prime⟩

instance : NeZero sm2N := ⟨sm2N_prime.ne_zero⟩

theorem sm2P_lt : sm2P < 256 ^ 32 := by decide

theorem sm2N_lt : sm2N < 256 ^ 32 := by decide

/-! ## Keys -/

def PublicKey.point (key : PublicKey) : EPoint :=
  .affine (key.px.toNat % sm2P) (key.py.toNat % sm2P)

def PublicKey.OnCurve (key : PublicKey) : Prop :=
  sm2Curve.OnCurve (key.px.toNat % sm2P) (key.py.toNat % sm2P)

instance (key : PublicKey) : Decidable key.OnCurve := inferInstanceAs (Decidable (_ = _))

theorem PublicKey.point_valid {key : PublicKey} (onCurve : key.OnCurve) :
    sm2Curve.Valid key.point :=
  ⟨Nat.mod_lt _ sm2P_prime.pos, Nat.mod_lt _ sm2P_prime.pos, onCurve⟩

theorem testPoint_eq_zero {x y : Nat} (onCurve : sm2Curve.OnCurve x y) :
    testPoint (.affine x y) = 0 := by
  have equation : y * y % sm2P = (x * x * x + sm2A * x + sm2B) % sm2P := onCurve
  have same : ((x ^ 3 % sm2P + sm2A * x % sm2P + sm2B) % sm2P) = y ^ 2 % sm2P := by
    rw [pow_two, equation, Nat.add_mod (x ^ 3 % sm2P + sm2A * x % sm2P), ← Nat.add_mod (x ^ 3),
      ← Nat.add_mod, show x ^ 3 = x * x * x by ring]
  simp [testPoint, epointGet, same]

theorem sm2MakePubkey_status (priKey : Bytes 32) :
    (sm2MakePubkey priKey).1 = if sm2N ∣ priKey.toNat then errInfinityPoint else 0 := by
  have valid := mult_sm2G_valid priKey.toNat
  have order : sm2Curve.mult sm2N (sm2Curve.mult priKey.toNat sm2G) = .infinity := by
    rw [sm2Curve.mult_mult _ _ sm2G_valid, mult_sm2G_eq_infinity_iff]
    exact Nat.dvd_mul_right _ _
  simp only [sm2MakePubkey, ← mult_sm2G_eq_infinity_iff]
  cases pa : sm2Curve.mult priKey.toNat sm2G with
  | infinity => simp [testPubKey]
  | affine x y =>
      rw [pa] at valid order
      rcases valid with ⟨xBound, yBound, onCurve⟩
      rw [sm2Curve_modulus] at xBound yBound
      simp [testPubKey, epointGet, xBound, yBound, testPoint_eq_zero onCurve, order]

theorem sm2MakePubkey_point {priKey : Bytes 32} (usable : ¬sm2N ∣ priKey.toNat) :
    (sm2MakePubkey priKey).2.OnCurve ∧
      (sm2MakePubkey priKey).2.point = sm2Curve.mult priKey.toNat sm2G := by
  have valid := mult_sm2G_valid priKey.toNat
  rw [← mult_sm2G_eq_infinity_iff] at usable
  simp only [sm2MakePubkey, PublicKey.OnCurve, PublicKey.point]
  cases pa : sm2Curve.mult priKey.toNat sm2G with
  | infinity => exact absurd pa usable
  | affine x y =>
      rw [pa] at valid
      rcases valid with ⟨xBound, yBound, onCurve⟩
      rw [sm2Curve_modulus] at xBound yBound
      have xFits : x < 256 ^ 32 := xBound.trans sm2P_lt
      have yFits : y < 256 ^ 32 := yBound.trans sm2P_lt
      simp only [epointGet, Bytes.toNat_ofNat xFits, Bytes.toNat_ofNat yFits,
        Nat.mod_eq_of_lt xBound, Nat.mod_eq_of_lt yBound]
      exact ⟨onCurve, trivial⟩

/-! ## Signing -/

def commitment (rand : Bytes 32) : Nat := (epointGet (sm2Curve.mult rand.toNat sm2G)).1

/-- What `SM2_Sign` guarantees of a pair it writes. -/
structure Signed (message : Message) (d rand : Bytes 32) (signature : Signature) : Prop where
  r_eq : signature.r.toNat =
    (messageDigest message (sm2MakePubkey d).2 + commitment rand) % sm2N
  r_ne_zero : signature.r.toNat ≠ 0
  rk_ne : signature.r.toNat + rand.toNat ≠ sm2N
  s_ne_zero : signature.s.toNat ≠ 0
  s_lt : signature.s.toNat < sm2N
  equation : (signature.s.toNat * (1 + d.toNat) + signature.r.toNat * d.toNat : ZMod sm2N) =
    rand.toNat

theorem Signed.r_lt {message : Message} {d rand : Bytes 32} {signature : Signature}
    (signed : Signed message d rand signature) : signature.r.toNat < sm2N := by
  rw [signed.r_eq]
  exact Nat.mod_lt _ sm2N_prime.pos

def signProduct (d : Bytes 32) (r k : Nat) : Int :=
  xgcd (d.toNat + 1) sm2N * ((k : Int) - (r * d.toNat % sm2N : Nat) + sm2N)

private theorem product_nonneg (d : Bytes 32) (r k : Nat) : 0 ≤ signProduct d r k := by
  have reduced : r * d.toNat % sm2N < sm2N := Nat.mod_lt _ sm2N_prime.pos
  have inverse := (xgcd_spec (Nat.add_one_pos d.toNat) sm2N_prime.pos).1
  exact mul_nonneg inverse (by omega)

private theorem product_mod (d : Bytes 32) (r k : Nat) :
    ((signProduct d r k).tmod sm2N).toNat < sm2N ∧
      (((signProduct d r k).tmod sm2N).toNat : Int) = signProduct d r k % sm2N := by
  have positive : (0 : Int) < sm2N := by exact_mod_cast sm2N_prime.pos
  rw [Int.tmod_eq_emod_of_nonneg (product_nonneg d r k)]
  have bounds := Int.emod_lt_of_pos (signProduct d r k) positive
  have nonneg := Int.emod_nonneg (signProduct d r k) positive.ne'
  omega

theorem xgcd_inverse {d : Bytes 32} (invertible : ¬sm2N ∣ d.toNat + 1) :
    (d.toNat + 1 : ZMod sm2N) * xgcd (d.toNat + 1) sm2N = 1 := by
  have coprime : Nat.gcd (d.toNat + 1) sm2N = 1 :=
    ((Nat.Prime.coprime_iff_not_dvd sm2N_prime).mpr invertible).symm
  have inverse := (xgcd_spec (Nat.add_one_pos d.toNat) sm2N_prime.pos).2.2
  rw [coprime] at inverse
  exact_mod_cast inverse

theorem not_dvd_succ_of_product (d : Bytes 32) (r k : Nat)
    (nonzero : (signProduct d r k).tmod sm2N ≠ 0) : ¬sm2N ∣ d.toNat + 1 := by
  intro divides
  have bound := d.toNat_lt
  have twice : 256 ^ 32 < 2 * sm2N := by decide
  have equal : d.toNat + 1 = sm2N :=
    Nat.eq_of_dvd_of_lt_two_mul (by omega) divides (by omega)
  apply nonzero
  rw [signProduct, equal, xgcd_self sm2N_prime.pos, Int.mul_tmod_right]

private theorem product_equation (d : Bytes 32) (r k : Nat)
    (nonzero : (signProduct d r k).tmod sm2N ≠ 0) :
    ((signProduct d r k : ZMod sm2N)) * (1 + d.toNat) + r * d.toNat = k := by
  have invertible := not_dvd_succ_of_product d r k nonzero
  rw [signProduct]
  push_cast
  rw [ZMod.natCast_self]
  linear_combination (k - r * d.toNat : ZMod sm2N) * xgcd_inverse invertible

theorem product_of_s_eq_zero {d : Bytes 32} {r k : Nat} (invertible : ¬sm2N ∣ d.toNat + 1)
    (zero : (signProduct d r k).tmod sm2N = 0) : r * d.toNat % sm2N = k % sm2N := by
  have vanishes : (signProduct d r k : ZMod sm2N) = 0 :=
    (ZMod.intCast_zmod_eq_zero_iff_dvd _ sm2N).mpr (Int.dvd_of_tmod_eq_zero zero)
  rw [signProduct] at vanishes
  rw [← ZMod.natCast_eq_natCast_iff']
  push_cast at vanishes ⊢
  rw [ZMod.natCast_self] at vanishes
  linear_combination (k - r * d.toNat : ZMod sm2N) * xgcd_inverse invertible -
    (d.toNat + 1 : ZMod sm2N) * vanishes

theorem sm2SignWith_of_r (message : Message) (d rand : Bytes 32) {r : Nat}
    (first : (messageDigest message (sm2MakePubkey d).2 + commitment rand) % sm2N = r) :
    sm2SignWith message d rand =
      if r = 0 ∨ r + rand.toNat = sm2N then (errGenerateR, none)
      else if (signProduct d r rand.toNat).tmod sm2N = 0 then (errGenerateS, none)
      else (0, some ⟨Bytes.ofNat 32 r,
        Bytes.ofNat 32 ((signProduct d r rand.toNat).tmod sm2N).toNat⟩) := by
  rw [← first]
  rfl

theorem sm2SignWith_cases (message : Message) (d rand : Bytes 32) :
    sm2SignWith message d rand = (errGenerateR, none) ∨
      sm2SignWith message d rand = (errGenerateS, none) ∨
      ∃ signature, sm2SignWith message d rand = (0, some signature) ∧
        Signed message d rand signature := by
  let r := (messageDigest message (sm2MakePubkey d).2 + commitment rand) % sm2N
  have rLt : r < sm2N := Nat.mod_lt _ sm2N_prime.pos
  rw [sm2SignWith_of_r message d rand (show _ = r from rfl)]
  by_cases badR : r = 0 ∨ r + rand.toNat = sm2N
  · exact Or.inl (if_pos badR)
  · rw [if_neg badR]
    by_cases badS : (signProduct d r rand.toNat).tmod sm2N = 0
    · exact Or.inr (Or.inl (if_pos badS))
    · rw [if_neg badS]
      rcases product_mod d r rand.toNat with ⟨sLt, residue⟩
      have rBytes : (Bytes.ofNat 32 r).toNat = r := Bytes.toNat_ofNat (rLt.trans sm2N_lt)
      have sBytes : (Bytes.ofNat 32 ((signProduct d r rand.toNat).tmod sm2N).toNat).toNat =
          ((signProduct d r rand.toNat).tmod sm2N).toNat := Bytes.toNat_ofNat (sLt.trans sm2N_lt)
      have sCast : (((signProduct d r rand.toNat).tmod sm2N).toNat : ZMod sm2N) =
          (signProduct d r rand.toNat : ZMod sm2N) := by
        have cast := congrArg (Int.cast (R := ZMod sm2N)) residue
        rwa [Int.cast_natCast, ZMod.intCast_mod] at cast
      have nonneg : 0 ≤ (signProduct d r rand.toNat).tmod sm2N := Int.tmod_nonneg _ (product_nonneg _ _ _)
      refine Or.inr (Or.inr ⟨_, rfl, ?_⟩)
      constructor
      · exact rBytes
      · rw [rBytes]
        exact fun zero => badR (Or.inl zero)
      · rw [rBytes]
        exact fun equal => badR (Or.inr equal)
      · rw [sBytes]
        omega
      · rw [sBytes]
        exact sLt
      · rw [rBytes, sBytes, sCast]
        exact product_equation d r rand.toNat badS

/-! ## Verification -/

structure Admissible (key : PublicKey) (signature : Signature) : Prop where
  onCurve : key.OnCurve
  r_range : 1 ≤ signature.r.toNat ∧ signature.r.toNat ≤ sm2N - 1
  s_range : 1 ≤ signature.s.toNat ∧ signature.s.toNat ≤ sm2N - 1
  t_ne_zero : (signature.r.toNat + signature.s.toNat) % sm2N ≠ 0

def verifierPoint (key : PublicKey) (signature : Signature) : EPoint :=
  sm2Curve.add (sm2Curve.mult signature.s.toNat sm2G)
    (sm2Curve.mult ((signature.r.toNat + signature.s.toNat) % sm2N) key.point)

theorem testRange_eq_false_iff (x : Nat) : testRange x = false ↔ 1 ≤ x ∧ x ≤ sm2N - 1 := by
  simp [testRange]
  omega

theorem epointSet_key (key : PublicKey) :
    epointSet key.px.toNat key.py.toNat = if key.OnCurve then some key.point else none := rfl

theorem sm2Verify_of_onCurve (message : Message) {key : PublicKey} (signature : Signature)
    (onCurve : key.OnCurve) :
    sm2Verify message key signature =
      if testRange signature.r.toNat then errOutrangeR
      else if testRange signature.s.toNat then errOutrangeS
      else if (signature.r.toNat + signature.s.toNat) % sm2N = 0 then errGenerateT
      else if (messageDigest message key + (epointGet (verifierPoint key signature)).1) % sm2N =
          signature.r.toNat then 0
      else errDataMemcmp := by
  rw [sm2Verify, epointSet_key, if_pos onCurve]
  rfl

/-- Acceptance, with the coordinate that `epoint_get` hands out. -/
theorem sm2Verify_eq_zero_iff (message : Message) (key : PublicKey) (signature : Signature) :
    sm2Verify message key signature = 0 ↔
      Admissible key signature ∧
        (messageDigest message key + (epointGet (verifierPoint key signature)).1) % sm2N =
          signature.r.toNat := by
  by_cases onCurve : key.OnCurve
  · rw [sm2Verify_of_onCurve message signature onCurve]
    cases rRange : testRange signature.r.toNat with
    | true =>
        have outside := mt (testRange_eq_false_iff signature.r.toNat).mpr (by simp [rRange])
        exact iff_of_false (by simp [errOutrangeR]) fun accepted => outside accepted.1.r_range
    | false =>
        cases sRange : testRange signature.s.toNat with
        | true =>
            have outside := mt (testRange_eq_false_iff signature.s.toNat).mpr (by simp [sRange])
            exact iff_of_false (by simp [errOutrangeS]) fun accepted => outside accepted.1.s_range
        | false =>
            have rInside := (testRange_eq_false_iff _).mp rRange
            have sInside := (testRange_eq_false_iff _).mp sRange
            simp only [Bool.false_eq_true, ↓reduceIte]
            by_cases tZero : (signature.r.toNat + signature.s.toNat) % sm2N = 0
            · rw [if_pos tZero]
              exact iff_of_false (by decide) fun accepted => accepted.1.t_ne_zero tZero
            · rw [if_neg tZero, and_iff_right ⟨onCurve, rInside, sInside, tZero⟩]
              simp [errDataMemcmp]
  · have refused : sm2Verify message key signature = errPubkeyInit := by
      rw [sm2Verify, epointSet_key, if_neg onCurve]
    rw [refused]
    exact iff_of_false (by decide) fun accepted => onCurve accepted.1.onCurve

end Penglai.Gm
