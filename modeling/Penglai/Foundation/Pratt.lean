import Mathlib

namespace Penglai

/-! # Pratt primality certificates

A checked list of primes, each with a generator of its multiplicative group and
the factorization of its predecessor into earlier entries. One evaluation of
the checker establishes that every listed number is prime. -/

/-- Square-and-multiply reduction of `base ^ exponent` modulo `modulus`. One
binary digit of the exponent is consumed for each unit of fuel. -/
def powMod (modulus : Nat) : (fuel : Nat) → (base exponent : Nat) → Nat
  | 0, _, _ => 1 % modulus
  | fuel + 1, base, exponent =>
      let half := powMod modulus fuel (base * base % modulus) (exponent / 2)
      if exponent % 2 = 0 then half else half * base % modulus

theorem powMod_eq (modulus : Nat) : ∀ (fuel base exponent : Nat),
    exponent < 2 ^ fuel → powMod modulus fuel base exponent = base ^ exponent % modulus
  | 0, base, exponent, bound => by
      have exponentZero : exponent = 0 := by simpa using bound
      simp [powMod, exponentZero]
  | fuel + 1, base, exponent, bound => by
      have halfBound : exponent / 2 < 2 ^ fuel := by
        rw [Nat.pow_succ] at bound
        omega
      have half : powMod modulus fuel (base * base % modulus) (exponent / 2) =
          base ^ (2 * (exponent / 2)) % modulus := by
        rw [powMod_eq modulus fuel _ _ halfBound, ← Nat.pow_mod, ← pow_two, ← pow_mul]
      rcases Nat.mod_two_eq_zero_or_one exponent with even | odd
      · have whole : 2 * (exponent / 2) = exponent := by omega
        simp [powMod, even, half, whole]
      · have whole : exponent = 2 * (exponent / 2) + 1 := by omega
        rw [powMod, if_neg (by omega), half, Nat.mod_mul_mod, ← pow_succ, ← whole]

/-- One claimed prime: a generator modulo it and the factors, with
multiplicity, of its predecessor. -/
structure PrattEntry where
  prime : Nat
  generator : Nat
  factors : List Nat

namespace PrattEntry

def Checks (known : List Nat) (entry : PrattEntry) : Bool :=
  decide (1 < entry.prime) && entry.factors.prod == entry.prime - 1 &&
    entry.factors.all (fun factor => known.contains factor) &&
    powMod entry.prime (entry.prime.log2 + 1) entry.generator (entry.prime - 1) == 1 &&
    entry.factors.all fun factor =>
      powMod entry.prime (entry.prime.log2 + 1) entry.generator
        ((entry.prime - 1) / factor) != 1

private theorem powMod_prime_eq (entry : PrattEntry) (exponent : Nat)
    (bound : exponent ≤ entry.prime) :
    powMod entry.prime (entry.prime.log2 + 1) entry.generator exponent =
      entry.generator ^ exponent % entry.prime :=
  powMod_eq entry.prime _ _ _ (bound.trans_lt Nat.lt_log2_self)

private theorem residue_pow_eq_one_iff {modulus : Nat} (large : 1 < modulus)
    (base exponent : Nat) :
    (base : ZMod modulus) ^ exponent = 1 ↔ base ^ exponent % modulus = 1 := by
  have oneMod : 1 % modulus = 1 := Nat.mod_eq_of_lt large
  rw [← Nat.cast_pow, ← Nat.cast_one, ZMod.natCast_eq_natCast_iff']
  rw [oneMod]

/-- The Lucas test, with the order of the generator certified at the listed
factors. -/
theorem Checks.isPrime {known : List Nat} {entry : PrattEntry}
    (checks : entry.Checks known) (knownPrime : ∀ value ∈ known, value.Prime) :
    entry.prime.Prime := by
  simp only [Checks, Bool.and_eq_true, decide_eq_true_eq, beq_iff_eq,
    List.all_eq_true, List.contains_iff_mem, bne_iff_ne] at checks
  rcases checks with ⟨⟨⟨⟨large, product⟩, factorsKnown⟩, fermat⟩, order⟩
  rw [powMod_prime_eq entry _ (Nat.sub_le _ _)] at fermat
  apply lucas_primality entry.prime entry.generator
  · exact (residue_pow_eq_one_iff large _ _).mpr fermat
  · intro divisor divisorPrime divides
    rw [← product] at divides
    rcases (Prime.dvd_prod_iff divisorPrime.prime).mp divides with ⟨factor, factorMem, divisorDvd⟩
    have divisorEq : divisor = factor :=
      (Nat.prime_dvd_prime_iff_eq divisorPrime
        (knownPrime factor (factorsKnown factor factorMem))).mp divisorDvd
    subst divisorEq
    have failed := order divisor factorMem
    rw [powMod_prime_eq entry _ ((Nat.div_le_self _ _).trans (Nat.sub_le _ _))] at failed
    exact fun equal => failed ((residue_pow_eq_one_iff large _ _).mp equal)

end PrattEntry

def checkPratt : (known : List Nat) → List PrattEntry → Bool
  | _, [] => true
  | known, entry :: rest =>
      entry.Checks known && checkPratt (entry.prime :: known) rest

theorem prime_of_checkPratt : ∀ {known : List Nat} {entries : List PrattEntry},
    checkPratt known entries = true → (∀ value ∈ known, value.Prime) →
    ∀ entry ∈ entries, entry.prime.Prime
  | _, [], _, _, _, member => by cases member
  | known, head :: rest, checks, knownPrime, entry, member => by
      simp only [checkPratt, Bool.and_eq_true] at checks
      have headPrime := PrattEntry.Checks.isPrime checks.1 knownPrime
      rcases List.mem_cons.mp member with equal | member
      · exact equal ▸ headPrime
      · refine prime_of_checkPratt checks.2 ?_ entry member
        intro value valueMem
        rcases List.mem_cons.mp valueMem with equal | valueMem
        · exact equal ▸ headPrime
        · exact knownPrime value valueMem

end Penglai
