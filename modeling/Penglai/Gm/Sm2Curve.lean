import Penglai.Foundation.ShortCurve

namespace Penglai.Gm

/-! # The SM2 curve

The parameters of `SM2_sv.c` as numbers, big-endian as in the byte tables
there, and what the signature scheme rests on: both moduli are prime, the base
point lies on the curve, and its order is `SM2_n`. -/

def sm2P : Nat := 0xFFFFFFFEFFFFFFFFFFFFFFFFFFFFFFFFFFFFFFFF00000000FFFFFFFFFFFFFFFF

def sm2A : Nat := 0xFFFFFFFEFFFFFFFFFFFFFFFFFFFFFFFFFFFFFFFF00000000FFFFFFFFFFFFFFFC

def sm2B : Nat := 0x28E9FA9E9D9F5E344D5A9E4BCF6509A7F39789F515AB8F92DDBCBD414D940E93

def sm2Gx : Nat := 0x32C4AE2C1F1981195F9904466A39C9948FE30BBFF2660BE1715A4589334C74C7

def sm2Gy : Nat := 0xBC3736A2F4F6779C59BDCEE36B692153D0A9877CC62A474002DF32E52139F0A0

def sm2N : Nat := 0xFFFFFFFEFFFFFFFFFFFFFFFFFFFFFFFF7203DF6B21C6052B53BBF40939D54123

/-! ## Primality -/

def sm2Certificate : List PrattEntry :=
  [⟨3, 2, [2]⟩, ⟨5, 2, [2, 2]⟩, ⟨7, 3, [2, 3]⟩, ⟨11, 2, [2, 5]⟩, ⟨13, 2, [2, 2, 3]⟩,
  ⟨17, 3, [2, 2, 2, 2]⟩, ⟨19, 2, [2, 3, 3]⟩, ⟨23, 5, [2, 11]⟩, ⟨29, 2, [2, 2, 7]⟩,
  ⟨31, 3, [2, 3, 5]⟩, ⟨37, 2, [2, 2, 3, 3]⟩, ⟨41, 6, [2, 2, 2, 5]⟩, ⟨43, 3, [2, 3, 7]⟩,
  ⟨53, 2, [2, 2, 13]⟩, ⟨59, 2, [2, 29]⟩, ⟨61, 2, [2, 2, 3, 5]⟩, ⟨67, 2, [2, 3, 11]⟩,
  ⟨71, 7, [2, 5, 7]⟩, ⟨73, 5, [2, 2, 2, 3, 3]⟩, ⟨79, 3, [2, 3, 13]⟩, ⟨83, 2, [2, 41]⟩,
  ⟨89, 3, [2, 2, 2, 11]⟩, ⟨97, 5, [2, 2, 2, 2, 2, 3]⟩, ⟨101, 2, [2, 2, 5, 5]⟩,
  ⟨103, 5, [2, 3, 17]⟩, ⟨127, 3, [2, 3, 3, 7]⟩, ⟨137, 3, [2, 2, 2, 17]⟩, ⟨179, 2, [2, 89]⟩,
  ⟨181, 2, [2, 2, 3, 3, 5]⟩, ⟨233, 3, [2, 2, 2, 29]⟩, ⟨241, 7, [2, 2, 2, 2, 3, 5]⟩,
  ⟨251, 6, [2, 5, 5, 5]⟩, ⟨337, 10, [2, 2, 2, 2, 3, 7]⟩, ⟨359, 7, [2, 179]⟩, ⟨367, 6, [2, 3, 61]⟩,
  ⟨431, 7, [2, 5, 43]⟩, ⟨571, 3, [2, 3, 5, 19]⟩, ⟨719, 11, [2, 359]⟩, ⟨743, 5, [2, 7, 53]⟩,
  ⟨769, 11, [2, 2, 2, 2, 2, 2, 2, 2, 3]⟩, ⟨823, 3, [2, 3, 137]⟩, ⟨1013, 3, [2, 2, 11, 23]⟩,
  ⟨1213, 2, [2, 2, 3, 101]⟩, ⟨1447, 3, [2, 3, 241]⟩, ⟨2273, 3, [2, 2, 2, 2, 2, 71]⟩,
  ⟨2473, 5, [2, 2, 2, 3, 103]⟩, ⟨3037, 2, [2, 2, 3, 11, 23]⟩, ⟨3049, 11, [2, 2, 2, 3, 127]⟩,
  ⟨4547, 2, [2, 2273]⟩, ⟨4957, 2, [2, 2, 3, 7, 59]⟩, ⟨5303, 5, [2, 11, 241]⟩,
  ⟨5711, 19, [2, 5, 571]⟩, ⟨5801, 3, [2, 2, 2, 5, 5, 29]⟩, ⟨7759, 3, [2, 3, 3, 431]⟩,
  ⟨12149, 2, [2, 2, 3037]⟩, ⟨14057, 3, [2, 2, 2, 7, 251]⟩, ⟨30223, 3, [2, 3, 3, 23, 73]⟩,
  ⟨34511, 7, [2, 5, 7, 17, 29]⟩, ⟨54983, 5, [2, 37, 743]⟩, ⟨71209, 7, [2, 2, 2, 3, 3, 23, 43]⟩,
  ⟨84163, 2, [2, 3, 13, 13, 83]⟩, ⟨110899, 3, [2, 3, 3, 61, 101]⟩, ⟨179429, 2, [2, 2, 31, 1447]⟩,
  ⟨363761, 3, [2, 2, 2, 2, 5, 4547]⟩, ⟨3079049, 3, [2, 2, 2, 7, 54983]⟩,
  ⟨6158099, 2, [2, 3079049]⟩, ⟨8214737, 3, [2, 2, 2, 2, 67, 79, 97]⟩,
  ⟨9061163, 2, [2, 11, 71, 5801]⟩, ⟨10042883, 2, [2, 1013, 4957]⟩,
  ⟨17965699, 2, [2, 3, 71, 181, 233]⟩, ⟨107615843, 2, [2, 43, 103, 12149]⟩,
  ⟨117774739, 2, [2, 3, 3, 59, 110899]⟩, ⟨1413296869, 6, [2, 2, 3, 117774739]⟩,
  ⟨2566129871, 7, [2, 5, 3049, 84163]⟩, ⟨3017783777, 3, [2, 2, 2, 2, 2, 7, 7, 337, 5711]⟩,
  ⟨348253387243, 3, [2, 3, 61, 5303, 179429]⟩, ⟨2368433183657, 3, [2, 2, 2, 41, 719, 10042883]⟩,
  ⟨4641351449027, 2, [2, 769, 3017783777]⟩, ⟨5636460199499, 2, [2, 31, 79, 127, 9061163]⟩,
  ⟨101456283590983, 3, [2, 3, 3, 5636460199499]⟩,
  ⟨417514796639753, 3, [2, 2, 2, 7, 367, 2473, 8214737]⟩,
  ⟨3258964060712033, 3, [2, 2, 2, 2, 2, 43, 2368433183657]⟩,
  ⟨4773264379806847, 3, [2, 3, 7, 11, 823, 34511, 363761]⟩,
  ⟨66013261729388519804782124120027, 2, [2, 13, 1213, 71209, 6158099, 4773264379806847]⟩,
  ⟨18120927127286907576013935251791662753637, 6,
    [2, 2, 3, 3, 17965699, 107615843, 2566129871, 101456283590983]⟩,
  ⟨125197554539772723432468576818475380947471091418362477724521, 3,
    [2, 2, 2, 5, 53, 3258964060712033, 18120927127286907576013935251791662753637]⟩,
  ⟨115792089210356248756420345214020892766061623724957744567843809356293439045923, 3,
    [2, 3, 7759, 14057, 1413296869, 125197554539772723432468576818475380947471091418362477724521]⟩,
  ⟨115792089210356248756420345214020892766250353991924191454421193933289684991999, 13,
    [2, 43, 30223, 348253387243, 4641351449027, 417514796639753,
      66013261729388519804782124120027]⟩]

theorem sm2Certificate_checks : checkPratt [2] sm2Certificate = true := by decide +kernel

private theorem certified (place : Fin sm2Certificate.length) :
    (sm2Certificate.get place).prime.Prime := by
  apply prime_of_checkPratt sm2Certificate_checks _ _ (List.get_mem _ _)
  intro value member
  rw [List.mem_singleton.mp member]
  exact Nat.prime_two

theorem sm2N_prime : sm2N.Prime := certified ⟨86, by decide⟩

theorem sm2P_prime : sm2P.Prime := certified ⟨87, by decide⟩

/-! ## The curve and its base point -/

def sm2Curve : ShortCurve where
  modulus := sm2P
  a := sm2A
  b := sm2B
  prime := sm2P_prime
  twoLt := by decide
  discriminant := by decide +kernel

@[simp] theorem sm2Curve_modulus : sm2Curve.modulus = sm2P := rfl

def sm2G : EPoint := .affine sm2Gx sm2Gy

theorem sm2G_valid : sm2Curve.Valid sm2G := by decide +kernel

theorem mult_sm2N_sm2G : sm2Curve.mult sm2N sm2G = .infinity := by decide +kernel

theorem mult_sm2G_valid (scalar : Nat) : sm2Curve.Valid (sm2Curve.mult scalar sm2G) :=
  sm2Curve.mult_valid scalar sm2G_valid

theorem mult_sm2G_eq_infinity_iff (scalar : Nat) :
    sm2Curve.mult scalar sm2G = .infinity ↔ sm2N ∣ scalar :=
  sm2Curve.mult_eq_infinity_iff_dvd sm2N_prime sm2G_valid (by simp [sm2G]) mult_sm2N_sm2G scalar

theorem mult_sm2G_congr {first second : Nat} (congruent : first % sm2N = second % sm2N) :
    sm2Curve.mult first sm2G = sm2Curve.mult second sm2G :=
  sm2Curve.mult_congr sm2G_valid mult_sm2N_sm2G congruent

end Penglai.Gm
