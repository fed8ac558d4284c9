import Penglai.Gm.Sm2Keys
import Penglai.Remote.Main

namespace Penglai.Remote

open Gm

/-! # Signatures of the device

`dev_pubkey` is the key of a private key, and of two nonces at least one signs a given
message. -/

def devPrivateKey : Bytes 32 :=
  Bytes.ofNat 32 0x3945208F7B2144B13F36E38AC6D39F95889393692860B51A42FB81EF4DF7C5B8

theorem toNat_devPrivateKey : devPrivateKey.toNat =
    0x3945208F7B2144B13F36E38AC6D39F95889393692860B51A42FB81EF4DF7C5B8 :=
  Bytes.toNat_ofNat (by decide)

theorem devPrivateKey_usable : ¬sm2N ∣ devPrivateKey.toNat := by
  rw [toNat_devPrivateKey]
  decide

theorem devPrivateKey_succ_usable : ¬sm2N ∣ devPrivateKey.toNat + 1 := by
  rw [toNat_devPrivateKey]
  decide

theorem sm2MakePubkey_devPrivateKey : (sm2MakePubkey devPrivateKey).2 = toPublicKey devPubkey := by
  decide +kernel

/-! ## When the last step of signing fails -/

def Fails (d : Bytes 32) (k r : Nat) : Prop :=
  r = 0 ∨ r + k = sm2N ∨ (signProduct d r k).tmod sm2N = 0

theorem fails_of_no_signature {message : Message} {d rand : Bytes 32}
    (none : (sm2SignWith message d rand).2 = none) :
    Fails d rand.toNat
      ((messageDigest message (sm2MakePubkey d).2 + commitment rand) % sm2N) := by
  by_contra signs
  rw [Fails, ← or_assoc, not_or] at signs
  rw [sm2SignWith_of_r message d rand rfl, if_neg signs.1, if_neg signs.2] at none
  cases none

/-! ## Two nonces -/

def devInverse : Nat := 0xCBB0EC5D08C822363AF35BF1816B7B282E005C5195C8FEBEE4A7A20D0B3EDB8

theorem fails_one {r : Nat} (reduced : r < sm2N) (fails : Fails devPrivateKey 1 r) :
    r = 0 ∨ r = sm2N - 1 ∨ r = devInverse := by
  rcases fails with zero | equal | vanishes
  · exact Or.inl zero
  · exact Or.inr (Or.inl (by omega))
  · have product := product_of_s_eq_zero devPrivateKey_succ_usable vanishes
    have inverse : devPrivateKey.toNat * devInverse % sm2N = 1 % sm2N := by
      rw [toNat_devPrivateKey]
      decide
    have equal : r % sm2N = devInverse % sm2N := by
      calc r % sm2N = r * (devPrivateKey.toNat * devInverse) % sm2N := by
            rw [Nat.mul_mod, inverse, ← Nat.mul_mod, Nat.mul_one]
        _ = r * devPrivateKey.toNat * devInverse % sm2N := by rw [Nat.mul_assoc]
        _ = devInverse % sm2N := by rw [Nat.mul_mod, product, ← Nat.mul_mod, Nat.one_mul]
    rw [Nat.mod_eq_of_lt reduced, Nat.mod_eq_of_lt (by decide)] at equal
    exact Or.inr (Or.inr equal)

theorem not_fails_two {r : Nat} (nonzero : r ≠ 0) (noSum : r + 2 ≠ sm2N)
    (noProduct : r * devPrivateKey.toNat % sm2N ≠ 2 % sm2N) : ¬Fails devPrivateKey 2 r := by
  rintro (zero | equal | vanishes)
  · exact nonzero zero
  · exact noSum equal
  · exact noProduct (product_of_s_eq_zero devPrivateKey_succ_usable vanishes)

theorem not_fails_two_of_fails_one {e : Nat}
    (fails : Fails devPrivateKey 1 ((e + sm2Gx) % sm2N)) :
    ¬Fails devPrivateKey 2 ((e + sm2DoubleGx) % sm2N) := by
  rw [add_sm2DoubleGx_mod]
  rcases fails_one (Nat.mod_lt _ sm2N_prime.pos) fails with first | first | first
  · rw [first]
    exact not_fails_two (by decide) (by decide) (by rw [toNat_devPrivateKey]; decide)
  · rw [first]
    exact not_fails_two (by decide) (by decide) (by rw [toNat_devPrivateKey]; decide)
  · rw [first]
    exact not_fails_two (by decide) (by decide) (by rw [toNat_devPrivateKey]; decide)

/-- The signature with nonce one, or with nonce two if that fails. -/
def devSign (message : Message) : Signature :=
  (sm2SignWith message devPrivateKey (Bytes.ofNat 32 1)).2.getD
    ((sm2SignWith message devPrivateKey (Bytes.ofNat 32 2)).2.getD
      ⟨Vector.replicate 32 0, Vector.replicate 32 0⟩)

theorem sm2Verify_of_written {message : Message} {rand : Bytes 32} {signature : Signature}
    (positive : 1 ≤ rand.toNat) (bound : rand.toNat ≤ sm2N - 1)
    (written : (sm2SignWith message devPrivateKey rand).2 = some signature) :
    sm2Verify message (toPublicKey devPubkey) signature = 0 := by
  rcases sm2SignWith_cases message devPrivateKey rand with
    failedR | failedS | ⟨signature', success, signed⟩
  · rw [failedR] at written
    cases written
  · rw [failedS] at written
    cases written
  · rw [success, Option.some.injEq] at written
    rw [← written, ← sm2MakePubkey_devPrivateKey]
    exact signed.sm2Verify_eq_zero devPrivateKey_usable positive bound

theorem sm2Verify_devSign (message : Message) :
    sm2Verify message (toPublicKey devPubkey) (devSign message) = 0 := by
  have one : (Bytes.ofNat 32 1).toNat = 1 := Bytes.toNat_ofNat (by decide)
  have two : (Bytes.ofNat 32 2).toNat = 2 := Bytes.toNat_ofNat (by decide)
  rw [devSign]
  cases first : (sm2SignWith message devPrivateKey (Bytes.ofNat 32 1)).2 with
  | some signature =>
      exact sm2Verify_of_written (by rw [one]) (by rw [one]; decide) first
  | none =>
      cases second : (sm2SignWith message devPrivateKey (Bytes.ofNat 32 2)).2 with
      | some signature =>
          exact sm2Verify_of_written (by rw [two]; decide) (by rw [two]; decide) second
      | none =>
          have failsOne := fails_of_no_signature first
          have failsTwo := fails_of_no_signature second
          rw [commitment_one, one] at failsOne
          rw [commitment_two, two] at failsTwo
          exact absurd failsTwo (not_fails_two_of_fails_one failsOne)

end Penglai.Remote
