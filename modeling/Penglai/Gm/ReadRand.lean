import Penglai.Foundation.Draws
import Penglai.Gm.Library

namespace Penglai.Gm

/-! # The bytes of `penglai_read_rand`

The function over an arbitrary generator, with the address of every byte it
writes. The generator of the library is one instance; the other is told in
advance what each `bigrand` answers. -/

/-! ## Over any generator -/

/-- Signed addition; a sum outside `int` is undefined. -/
def addInt (x y : Int) : Option Int :=
  if -2 ^ 31 ≤ x + y ∧ x + y < 2 ^ 31 then some (x + y) else none

def readRandBlocks (size : Int) : Option Int := do
  let padded ← addInt size 32
  let padded ← addInt padded (-1)
  some (padded.tdiv 32)

section AnyGenerator

variable {ρ : Type} (bigdig : Nat → Nat → ρ → Option (Nat × ρ))

/-- One round of the loop; each byte goes with its offset from `rand`. -/
def readRandRound (size blocks : Int) (i : Nat) :
    List (UInt8 × Nat) × ρ → Option (List (UInt8 × Nat) × ρ)
  | (writes, source) => do
      let fillSize := if (i : Int) = blocks - 1 then size - (blocks - 1) * 32 else 32
      let (x, source) ← bigdig (2 * fillSize).toNat 16 source
      some (writes ++ (beBytes fillSize.toNat x).zipIdx (i * 32), source)

def penglaiReadRand (size : Int) (source : ρ) : Option (List (UInt8 × Nat) × ρ) := do
  let blocks ← readRandBlocks size
  forRangeM 0 blocks.toNat (readRandRound bigdig size blocks) ([], source)

end AnyGenerator

def bigdigFrom (n b : Nat) (results : List Nat) : Option (Nat × List Nat) :=
  drawUntil (b ^ n) (fun x => x < b ^ n / b) results

/-! ## Sizes -/

theorem readRandBlocks_eq {size : Nat} (fits : size + 32 < 2 ^ 31) :
    readRandBlocks size = some (((size + 31) / 32 : Nat) : Int) := by
  have padded : addInt size 32 = some ((size : Int) + 32) := by
    rw [addInt, if_pos (by omega)]
  have less : addInt ((size : Int) + 32) (-1) = some ((size + 31 : Nat) : Int) := by
    rw [addInt, if_pos (by omega), Option.some.injEq]
    omega
  have quotient : ((size + 31 : Nat) : Int).tdiv 32 = (((size + 31) / 32 : Nat) : Int) := rfl
  rw [readRandBlocks, padded]
  simp only [Option.bind_eq_bind, Option.bind_some, less, quotient]

theorem readRandBlocks_of_overflow {size : Nat} (overflow : 2 ^ 31 ≤ size + 32) :
    readRandBlocks size = none := by
  have undefinedSum : addInt size 32 = none := by
    rw [addInt, if_neg (by omega)]
  rw [readRandBlocks, undefinedSum]
  rfl

def fillSize (size i : Nat) : Nat := min 32 (size - 32 * i)

theorem fillSize_pos {size i : Nat} (inside : i < (size + 31) / 32) : 0 < fillSize size i := by
  rw [fillSize]
  omega

theorem min_add_fillSize (size done : Nat) :
    min (32 * done) size + fillSize size done = min (32 * (done + 1)) size := by
  rw [fillSize]
  omega

theorem readBlock_eq {fuel size i : Nat} (inside : i < (size + 31) / 32) (rand : List UInt8)
    (rng : Rng) :
    LibState.readBlock fuel size ((size + 31) / 32) i (rand, rng) =
      (bigdig fuel (2 * fillSize size i) 16 rng).map fun drawn =>
        (rand ++ beBytes (fillSize size i) drawn.1, drawn.2) := by
  have filled : (if i = (size + 31) / 32 - 1 then size - ((size + 31) / 32 - 1) * 32 else 32) =
      fillSize size i := by
    rw [fillSize]
    split <;> omega
  simp only [LibState.readBlock, filled]
  cases bigdig fuel (2 * fillSize size i) 16 rng with
  | none => rfl
  | some drawn => rfl

theorem fillSize_eq {size i : Nat} (inside : i < (size + 31) / 32) :
    (if (i : Int) = (((size + 31) / 32 : Nat) : Int) - 1
      then (size : Int) - ((((size + 31) / 32 : Nat) : Int) - 1) * 32 else 32) =
        (fillSize size i : Int) := by
  rw [fillSize]
  split <;> omega

section AnyGenerator

variable {ρ : Type} {bigdig : Nat → Nat → ρ → Option (Nat × ρ)}

theorem readRandRound_eq {size i : Nat} (inside : i < (size + 31) / 32)
    (writes : List (UInt8 × Nat)) (source : ρ) :
    readRandRound bigdig size (((size + 31) / 32 : Nat) : Int) i (writes, source) =
      (bigdig (2 * fillSize size i) 16 source).map fun drawn =>
        (writes ++ (beBytes (fillSize size i) drawn.1).zipIdx (i * 32), drawn.2) := by
  have width : (2 * (fillSize size i : Int)).toNat = 2 * fillSize size i := by omega
  simp only [readRandRound, fillSize_eq inside, width, Int.toNat_natCast]
  cases bigdig (2 * fillSize size i) 16 source with
  | none => rfl
  | some drawn => rfl

theorem penglaiReadRand_eq {size : Nat} (fits : size + 32 < 2 ^ 31) (source : ρ) :
    penglaiReadRand bigdig size source =
      forRangeM 0 ((size + 31) / 32)
        (readRandRound bigdig size (((size + 31) / 32 : Nat) : Int)) ([], source) := by
  rw [penglaiReadRand, readRandBlocks_eq fits]
  rfl

theorem penglaiReadRand_of_overflow {size : Nat} (overflow : 2 ^ 31 ≤ size + 32) (source : ρ) :
    penglaiReadRand bigdig size source = none := by
  rw [penglaiReadRand, readRandBlocks_of_overflow overflow]
  rfl

end AnyGenerator

/-! ## Leading digits -/

def LeadingDigits (rand : List UInt8) : Prop :=
  ∀ i, (inside : 32 * i < rand.length) → (16 : UInt8) ≤ rand[32 * i]

def ExactDigits {ρ : Type} (bigdig : Nat → Nat → ρ → Option (Nat × ρ)) : Prop :=
  ∀ {n b : Nat} {source next : ρ} {x : Nat}, bigdig n b source = some (x, next) →
    b ^ n / b ≤ x ∧ x < b ^ n

theorem bigdigFrom_exactDigits : ExactDigits bigdigFrom := by
  intro n b source next x drawn
  rcases drawUntil_bounds drawn with ⟨below, kept⟩
  exact ⟨by simpa using kept, below⟩

theorem leadingDigit_iff {block : List UInt8} (nonempty : 0 < block.length) :
    16 ^ (2 * block.length) / 16 ≤ beNat block ↔ (16 : UInt8) ≤ block[0] := by
  cases block with
  | nil => cases nonempty
  | cons byte bytes =>
      have width : 16 ^ (2 * (bytes.length + 1)) / 16 = 16 * 256 ^ bytes.length := by
        rw [pow_mul, pow_succ, show 16 ^ 2 = 256 from rfl]
        omega
      have low : beNat bytes < 256 ^ bytes.length := beNat_lt bytes
      rw [List.length_cons, width, beNat_cons, List.getElem_cons_zero, UInt8.le_iff_toNat_le]
      constructor
      · intro large
        by_contra small
        have step : (byte.toNat + 1) * 256 ^ bytes.length ≤ 16 * 256 ^ bytes.length :=
          Nat.mul_le_mul_right _ (by simpa using small)
        rw [Nat.add_mul] at step
        omega
      · intro large
        have step : 16 * 256 ^ bytes.length ≤ byte.toNat * 256 ^ bytes.length :=
          Nat.mul_le_mul_right _ large
        omega

theorem LeadingDigits.append {rand block : List UInt8} {done : Nat} (leading : LeadingDigits rand)
    (full : rand.length = 32 * done) (short : block.length ≤ 32) (nonempty : 0 < block.length)
    (first : (16 : UInt8) ≤ block[0]) : LeadingDigits (rand ++ block) := by
  intro i inside
  rw [List.length_append] at inside
  by_cases earlier : 32 * i < rand.length
  · rw [List.getElem_append_left earlier]
    exact leading i earlier
  · have last : i = done := by omega
    subst last
    rw [List.getElem_append_right (by omega)]
    simpa only [full, Nat.sub_self] using first

theorem eq_of_zipIdx {rand rand' : List UInt8} (equal : rand.zipIdx = rand'.zipIdx) :
    rand = rand' := by
  rw [← List.zipIdx_map_fst 0 rand, equal, List.zipIdx_map_fst]

/-- Whatever the generator, the bytes from 0 to `size - 1` are written in order. -/
theorem penglaiReadRand_writes {ρ : Type} {bigdig : Nat → Nat → ρ → Option (Nat × ρ)}
    (exact : ExactDigits bigdig) {size : Nat} {source final : ρ} {writes : List (UInt8 × Nat)}
    (returned : penglaiReadRand bigdig size source = some (writes, final)) :
    ∃ rand, rand.length = size ∧ LeadingDigits rand ∧ writes = rand.zipIdx := by
  by_cases fits : size + 32 < 2 ^ 31
  · rw [penglaiReadRand_eq fits] at returned
    have written := forRangeM_invariant_of_eq_some
      (fun done (state : List (UInt8 × Nat) × ρ) => ∃ rand,
        rand.length = min (32 * done) size ∧ LeadingDigits rand ∧ state.1 = rand.zipIdx)
      ⟨[], by simp, by simp [LeadingDigits], rfl⟩ ?_ returned
    · rcases written with ⟨rand, length, leading, equal⟩
      exact ⟨rand, by omega, leading, equal⟩
    · rintro done inside ⟨writes, source⟩ next ⟨rand, length, leading, equal⟩ round
      have full : rand.length = 32 * done := by omega
      have positive : 0 < fillSize size done := fillSize_pos inside
      rw [Nat.zero_add, readRandRound_eq inside, Option.map_eq_some_iff] at round
      rcases round with ⟨⟨x, source'⟩, drawn, rfl⟩
      have bounds := exact drawn
      have below : x < 256 ^ fillSize size done := by
        rw [pow_mul] at bounds
        exact bounds.2
      have width : (beBytes (fillSize size done) x).length = fillSize size done :=
        beBytes_length _ _
      have first : (16 : UInt8) ≤ (beBytes (fillSize size done) x)[0] := by
        rw [← leadingDigit_iff (by omega), width, beNat_beBytes below]
        exact bounds.1
      refine ⟨rand ++ beBytes (fillSize size done) x, ?_, ?_, ?_⟩
      · rw [List.length_append, length, width, min_add_fillSize]
      · refine leading.append full ?_ (by omega) first
        rw [width, fillSize]
        omega
      · rw [List.zipIdx_append, ← equal, full, Nat.zero_add, Nat.mul_comm]
  · rw [penglaiReadRand_of_overflow (by omega)] at returned
    cases returned

/-! ## The results that lead to a target -/

def targetBlock (target : List UInt8) (i : Nat) : List UInt8 := (target.drop (32 * i)).take 32

theorem length_targetBlock (target : List UInt8) (i : Nat) :
    (targetBlock target i).length = fillSize target.length i := by
  rw [targetBlock, List.length_take, List.length_drop, fillSize]

def resultsFrom (target : List UInt8) (done count : Nat) : List Nat :=
  (List.range' done count).map fun i => beNat (targetBlock target i)

theorem bigdigFrom_block {target : List UInt8} {i : Nat} (leading : LeadingDigits target)
    (inside : i < (target.length + 31) / 32) (results : List Nat) :
    bigdigFrom (2 * fillSize target.length i) 16 (beNat (targetBlock target i) :: results) =
      some (beNat (targetBlock target i), results) := by
  have length := length_targetBlock target i
  have positive := fillSize_pos inside
  have first : (16 : UInt8) ≤ (targetBlock target i)[0] := by
    simp only [targetBlock, List.getElem_take, List.getElem_drop, Nat.add_zero]
    exact leading i (by omega)
  have below : beNat (targetBlock target i) < 16 ^ (2 * fillSize target.length i) := by
    rw [pow_mul, ← length]
    exact beNat_lt _
  have large := (leadingDigit_iff (by omega)).mpr first
  rw [length] at large
  rw [bigdigFrom]
  exact drawUntil_of_accepted below (by simpa using large) results

theorem readRandRound_target {target : List UInt8} {done count : Nat}
    (leading : LeadingDigits target) (inside : done < (target.length + 31) / 32) :
    readRandRound bigdigFrom target.length (((target.length + 31) / 32 : Nat) : Int) done
        ((target.take (32 * done)).zipIdx, resultsFrom target done (count + 1)) =
      some ((target.take (32 * (done + 1))).zipIdx, resultsFrom target (done + 1) count) := by
  have full : (target.take (32 * done)).length = done * 32 := by
    rw [List.length_take]
    omega
  have next : target.take (32 * (done + 1)) = target.take (32 * done) ++ targetBlock target done := by
    rw [Nat.mul_succ, List.take_add, targetBlock]
  rw [resultsFrom, List.range'_succ, List.map_cons, readRandRound_eq inside,
    bigdigFrom_block leading inside, ← length_targetBlock, Option.map_some, beBytes_beNat, next,
    List.zipIdx_append, full, Nat.zero_add]
  rfl

theorem penglaiReadRand_of_leadingDigits {target : List UInt8}
    (fits : target.length + 32 < 2 ^ 31) (leading : LeadingDigits target) :
    penglaiReadRand bigdigFrom target.length
        (resultsFrom target 0 ((target.length + 31) / 32)) = some (target.zipIdx, []) := by
  generalize blocksEq : (target.length + 31) / 32 = blocks
  have looped : ∃ final, forRangeM 0 blocks
      (readRandRound bigdigFrom target.length (blocks : Int))
        ([], resultsFrom target 0 blocks) = some final ∧
      final = ((target.take (32 * blocks)).zipIdx, resultsFrom target blocks (blocks - blocks)) := by
    refine forRangeM_invariant
      (fun done (state : List (UInt8 × Nat) × List Nat) => state =
        ((target.take (32 * done)).zipIdx, resultsFrom target done (blocks - done))) ?_ _ ?_
    · rfl
    · rintro done inside state rfl
      have remaining : blocks - done = blocks - (done + 1) + 1 := by omega
      refine ⟨_, ?_, rfl⟩
      rw [Nat.zero_add, remaining, ← blocksEq]
      exact readRandRound_target leading (by omega)
  rcases looped with ⟨final, reached, equal⟩
  have all : target.take (32 * blocks) = target := List.take_of_length_le (by omega)
  rw [penglaiReadRand_eq fits, blocksEq, reached, equal, all, Nat.sub_self]
  rfl

/-! ## What can be produced -/

/-- Every call that returns writes `rand[0]` to `rand[size - 1]`, each once. -/
def WritesEachOnce (size : Nat) : Prop :=
  ∀ results writes rest, penglaiReadRand bigdigFrom size results = some (writes, rest) →
    writes.map Prod.snd = List.range size

def CanProduce (target : List UInt8) : Prop :=
  WritesEachOnce target.length ∧
    ∃ results rest, penglaiReadRand bigdigFrom target.length results = some (target.zipIdx, rest)

theorem writesEachOnce (size : Nat) : WritesEachOnce size := by
  intro results writes rest returned
  rcases penglaiReadRand_writes bigdigFrom_exactDigits returned with ⟨rand, length, -, equal⟩
  rw [equal, List.zipIdx_map_snd, length, List.range_eq_range']

theorem CanProduce.leadingDigits {target : List UInt8} (producible : CanProduce target) :
    LeadingDigits target := by
  rcases producible with ⟨-, results, rest, returned⟩
  rcases penglaiReadRand_writes bigdigFrom_exactDigits returned with ⟨rand, -, leading, equal⟩
  rwa [eq_of_zipIdx equal]

/-- A byte string can come out exactly if its length leaves `int` room for the
padding and no block begins with the hexadecimal digit 0. -/
theorem canProduce_iff (target : List UInt8) :
    CanProduce target ↔ target.length + 32 < 2 ^ 31 ∧ LeadingDigits target := by
  constructor
  · intro producible
    refine ⟨?_, producible.leadingDigits⟩
    by_contra large
    rcases producible with ⟨-, results, rest, returned⟩
    rw [penglaiReadRand_of_overflow (by omega)] at returned
    cases returned
  · rintro ⟨fits, leading⟩
    exact ⟨writesEachOnce target.length, _, _, penglaiReadRand_of_leadingDigits fits leading⟩

theorem sm4TestKey_not_producible :
    ¬CanProduce [0x01, 0x23, 0x45, 0x67, 0x89, 0xab, 0xcd, 0xef,
      0xfe, 0xdc, 0xba, 0x98, 0x76, 0x54, 0x32, 0x10] :=
  fun producible => absurd (producible.leadingDigits 0 (by decide)) (by decide)

/-! ## The generator of the library -/

theorem bigrand_lt {w : Nat} (positive : 0 < w) (rng : Rng) : (bigrand w rng).1 < w :=
  Nat.mod_lt _ positive

theorem bigrandUntil_results {w : Nat} {reject : Nat → Bool} (positive : 0 < w) :
    ∀ {fuel x : Nat} {rng next : Rng}, bigrandUntil w reject fuel rng = some (x, next) →
      ∃ results, ∀ more, drawUntil w reject (results ++ more) = some (x, more)
  | 0, _, _, _, returned => by cases returned
  | fuel + 1, x, rng, next, returned => by
      have below : (bigrand w rng).1 < w := bigrand_lt positive rng
      rw [bigrandUntil_succ] at returned
      by_cases rejected : reject (bigrand w rng).1 = true
      · rw [if_pos rejected] at returned
        rcases bigrandUntil_results positive returned with ⟨results, drawn⟩
        refine ⟨(bigrand w rng).1 :: results, fun more => ?_⟩
        rw [List.cons_append, drawUntil_of_rejected below rejected, drawn]
      · rw [if_neg rejected, Option.some.injEq] at returned
        refine ⟨[(bigrand w rng).1], fun more => ?_⟩
        rw [List.singleton_append, drawUntil_of_accepted below (by simpa using rejected), returned]

/-- Every call of the library that returns is a call over the results its
generator gave. -/
theorem readRand_results {fuel size : Nat} {state next : LibState} {rand : List UInt8}
    (fits : size + 32 < 2 ^ 31) (running : state.ensureSeed.ernum = false)
    (returned : state.readRand fuel size = some (rand, next)) :
    ∃ results, ∀ more,
      penglaiReadRand bigdigFrom size (results ++ more) = some (rand.zipIdx, more) := by
  have notFailed : ¬state.ensureSeed.ernum = true := by simp [running]
  simp only [LibState.readRand, if_neg notFailed] at returned
  rcases Option.bind_eq_some_iff.mp returned with ⟨⟨bytes, rng⟩, looped, last⟩
  simp only [Option.some.injEq, Prod.mk.injEq] at last
  rw [show size + 32 - 1 = size + 31 from rfl] at looped
  have simulated := forRangeM_invariant_of_eq_some
    (fun done (state : List UInt8 × Rng) => state.1.length = min (32 * done) size ∧
      ∃ results, ∀ more, forRangeM 0 done
        (readRandRound bigdigFrom size (((size + 31) / 32 : Nat) : Int)) ([], results ++ more) =
          some (state.1.zipIdx, more))
    ⟨by simp, [], fun more => rfl⟩ ?_ looped
  · rcases simulated with ⟨-, results, reached⟩
    refine ⟨results, fun more => ?_⟩
    rw [penglaiReadRand_eq fits, ← last.1]
    exact reached more
  · rintro done inside ⟨rand, rng⟩ next ⟨length, results, reached⟩ round
    have full : rand.length = done * 32 := by
      simp only at length
      omega
    rw [Nat.zero_add, readBlock_eq inside, Option.map_eq_some_iff] at round
    rcases round with ⟨⟨x, rng'⟩, draw, rfl⟩
    rcases bigrandUntil_results (by positivity) draw with ⟨drawn, answers⟩
    refine ⟨?_, results ++ drawn, fun more => ?_⟩
    · rw [List.length_append, beBytes_length, length, min_add_fillSize]
    · rw [forRangeM, List.append_assoc, reached, Option.bind_some, Nat.zero_add,
        readRandRound_eq inside, bigdigFrom, answers, Option.map_some, List.zipIdx_append, full,
        Nat.zero_add]

theorem readRand_leadingDigits {fuel size : Nat} {state next : LibState} {rand : List UInt8}
    (fits : size + 32 < 2 ^ 31) (running : state.ensureSeed.ernum = false)
    (returned : state.readRand fuel size = some (rand, next)) :
    rand.length = size ∧ LeadingDigits rand := by
  rcases readRand_results fits running returned with ⟨results, reached⟩
  rcases penglaiReadRand_writes bigdigFrom_exactDigits (reached []) with
    ⟨written, length, leading, equal⟩
  rw [eq_of_zipIdx equal]
  exact ⟨length, leading⟩

end Penglai.Gm
