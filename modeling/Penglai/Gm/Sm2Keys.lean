import Penglai.Gm.Sm2Verification

namespace Penglai.Gm

/-! # Private keys out of range

`SM2_Sign` takes any 32 bytes for a private key and does not look at what
`SM2_make_pubkey` says about them. The two residues without a signature are zero, whose
public key is the point at infinity, and `n - 1`, whose successor has no inverse. -/

/-! ## Two nonces -/

def sm2DoubleGx : Nat := 0x56CEFD60D7C87C000D58EF57FA73BA4D9C0DFA08C08A7331495C2E1DA3F2BD52

theorem commitment_two : commitment (Bytes.ofNat 32 2) = sm2DoubleGx := by decide +kernel

theorem add_sm2DoubleGx_mod (e : Nat) :
    (e + sm2DoubleGx) % sm2N =
      ((e + sm2Gx) % sm2N + (sm2N + sm2DoubleGx - sm2Gx)) % sm2N := by
  have order : sm2Gx ≤ sm2N + sm2DoubleGx := by decide
  have moved : e + sm2Gx + (sm2N + sm2DoubleGx - sm2Gx) = e + sm2DoubleGx + sm2N := by omega
  rw [Nat.mod_add_mod, moved, Nat.add_mod_right]

theorem exists_nonce (e : Nat) : ∃ rand : Bytes 32,
    (1 ≤ rand.toNat ∧ rand.toNat ≤ sm2N - 1) ∧ (e + commitment rand) % sm2N ≠ 0 ∧
    (e + commitment rand) % sm2N + rand.toNat ≠ sm2N := by
  by_cases one : (e + sm2Gx) % sm2N ≠ 0 ∧ (e + sm2Gx) % sm2N + 1 ≠ sm2N
  · refine ⟨Bytes.ofNat 32 1, ?_⟩
    rw [commitment_one, Bytes.toNat_ofNat (by decide)]
    exact ⟨by decide, one⟩
  · refine ⟨Bytes.ofNat 32 2, ?_⟩
    have few : (e + sm2Gx) % sm2N = 0 ∨ (e + sm2Gx) % sm2N = sm2N - 1 := by omega
    rw [commitment_two, Bytes.toNat_ofNat (by decide), add_sm2DoubleGx_mod]
    cases few with
    | inl zero =>
        rw [zero]
        decide
    | inr last =>
        rw [last]
        decide

/-! ## Keys that have no public key -/

/-- Success stands for a public key and for a signature that verifies under it. -/
def SuccessUsable (message : Message) (d rand : Bytes 32) : Prop :=
  (sm2SignWith message d rand).1 = 0 →
    (sm2MakePubkey d).1 = 0 ∧
    ∃ signature, (sm2SignWith message d rand).2 = some signature ∧
      sm2Verify message (sm2MakePubkey d).2 signature = 0

/-- With a private key that is zero modulo the order, `s` is the nonce. -/
theorem sm2SignWith_of_dvd {message : Message} {d rand : Bytes 32} (divides : sm2N ∣ d.toNat)
    (range : 1 ≤ rand.toNat ∧ rand.toNat ≤ sm2N - 1)
    (rNe : (messageDigest message (sm2MakePubkey d).2 + commitment rand) % sm2N ≠ 0)
    (rkNe : (messageDigest message (sm2MakePubkey d).2 + commitment rand) % sm2N + rand.toNat ≠
      sm2N) : (sm2SignWith message d rand).1 = 0 := by
  have invertible : ¬sm2N ∣ d.toNat + 1 := by
    intro successor
    exact sm2N_prime.one_lt.ne' (Nat.dvd_one.mp ((Nat.dvd_add_right divides).mp successor))
  rw [sm2SignWith_of_r message d rand rfl, if_neg (not_or.mpr ⟨rNe, rkNe⟩), if_neg]
  intro zero
  have nonce := product_of_s_eq_zero invertible zero
  rw [Nat.mod_eq_zero_of_dvd (Dvd.dvd.mul_left divides _), Nat.mod_eq_of_lt (by omega)] at nonce
  omega

theorem exists_success_of_dvd (message : Message) {d : Bytes 32} (divides : sm2N ∣ d.toNat) :
    ∃ rand : Bytes 32, (1 ≤ rand.toNat ∧ rand.toNat ≤ sm2N - 1) ∧
      (sm2SignWith message d rand).1 = 0 ∧ (sm2MakePubkey d).1 = errInfinityPoint := by
  rcases exists_nonce (messageDigest message (sm2MakePubkey d).2) with ⟨rand, range, rNe, rkNe⟩
  refine ⟨rand, range, sm2SignWith_of_dvd divides range rNe rkNe, ?_⟩
  rw [sm2MakePubkey_status, if_pos divides]

theorem successUsable_of_not_dvd {message : Message} {d rand : Bytes 32}
    (usable : ¬sm2N ∣ d.toNat) (range : 1 ≤ rand.toNat ∧ rand.toNat ≤ sm2N - 1) :
    SuccessUsable message d rand := by
  intro success
  rcases sm2SignWith_cases message d rand with badR | badS | ⟨signature, written, signed⟩
  · rw [badR] at success
    cases success
  · rw [badS] at success
    cases success
  · refine ⟨?_, signature, ?_, signed.sm2Verify_eq_zero usable range.1 range.2⟩
    · rw [sm2MakePubkey_status, if_neg usable]
    · rw [written]

theorem sm2SignWith_of_dvd_succ (message : Message) {d : Bytes 32} (rand : Bytes 32)
    (divides : sm2N ∣ d.toNat + 1) : (sm2SignWith message d rand).1 ≠ 0 := by
  have product (r : Nat) : (signProduct d r rand.toNat).tmod sm2N = 0 := by
    by_contra nonzero
    exact not_dvd_succ_of_product d r rand.toNat nonzero divides
  rw [sm2SignWith_of_r message d rand rfl]
  split
  · decide
  · rw [if_pos (product _)]
    decide

/-- Success is usable with every nonce exactly for the keys that the group order does not
divide. -/
theorem successUsable_iff (message : Message) (d : Bytes 32) :
    (∀ rand : Bytes 32, 1 ≤ rand.toNat ∧ rand.toNat ≤ sm2N - 1 → SuccessUsable message d rand) ↔
      ¬sm2N ∣ d.toNat := by
  constructor
  · intro usable divides
    rcases exists_success_of_dvd message divides with ⟨rand, range, success, infinity⟩
    have status := (usable rand range success).1
    rw [infinity] at status
    cases status
  · intro usable rand range
    exact successUsable_of_not_dvd usable range

theorem zeroKey_success_unusable :
    ¬∀ (message : Message) (d rand : Bytes 32), 1 ≤ rand.toNat ∧ rand.toNat ≤ sm2N - 1 →
      SuccessUsable message d rand := by
  intro usable
  have divides : sm2N ∣ (Bytes.ofNat 32 0).toNat := by
    rw [Bytes.toNat_ofNat (by decide)]
    exact dvd_zero sm2N
  rcases exists_success_of_dvd emptyMessage divides with ⟨rand, range, success, infinity⟩
  have status := (usable emptyMessage (Bytes.ofNat 32 0) rand range success).1
  rw [infinity] at status
  cases status

end Penglai.Gm
