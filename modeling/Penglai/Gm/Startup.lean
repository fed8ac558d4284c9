import Penglai.Gm.Seeding

namespace Penglai.Gm

/-! # The first `SM2_Init`

Which generator state the first `SM2_Init` leaves: after the reset the only
input is whether a seed had been set, not which. -/

/-- The generator after `MIRACL_Init`, from the number drawn for its four bytes and
the state behind that draw. -/
def startupRng (drawn : Nat × Rng) : Rng :=
  irand (UInt32.ofNat (beNat (beBytes 4 drawn.1).reverse)) drawn.2

theorem bigrandUntil_of_accepted {w fuel : Nat} {reject : Nat → Bool} {rng : Rng}
    (accepted : reject (bigrand w rng).1 = false) :
    bigrandUntil w reject (fuel + 1) rng = some (bigrand w rng) := by
  rw [bigrandUntil_succ, accepted]
  rfl

theorem bigdig_of_accepted {fuel : Nat} {rng : Rng}
    (accepted : 16 ^ 7 ≤ (bigrand (16 ^ 8) rng).1) :
    bigdig (fuel + 1) 8 16 rng = some (bigrand (16 ^ 8) rng) := by
  apply bigrandUntil_of_accepted
  exact decide_eq_false (Nat.not_lt.mpr accepted)

namespace LibState

theorem readRand_four {fuel : Nat} {state : LibState} {drawn : Nat × Rng}
    (fine : state.ensureSeed.ernum = false)
    (draw : bigdig fuel 8 16 state.ensureSeed.rng = some drawn) :
    state.readRand fuel 4 =
      some (beBytes 4 drawn.1, { state.ensureSeed with rng := drawn.2 }) := by
  have unset : ¬state.ensureSeed.ernum = true := by simp [fine]
  have block : readBlock fuel 4 1 0 ([], state.ensureSeed.rng) =
      some (beBytes 4 drawn.1, drawn.2) := by
    simp only [readBlock, if_true, Nat.sub_self, Nat.zero_mul, Nat.sub_zero, Nat.reduceMul, draw,
      Option.bind_eq_bind, Option.bind_some, List.nil_append]
  rw [readRand]
  simp only [if_neg unset, Nat.reduceAdd, Nat.reduceSub, Nat.reduceDiv, forRangeM,
    Option.bind_some, Option.bind_eq_bind, block]

theorem miraclInit_of_draw {fuel : Nat} {state : LibState} {drawn : Nat × Rng}
    (fine : state.mirsys.ensureSeed.ernum = false)
    (draw : bigdig fuel 8 16 state.mirsys.ensureSeed.rng = some drawn) :
    state.miraclInit fuel = some { state.mirsys.ensureSeed with rng := startupRng drawn } := by
  rw [miraclInit, readRand_four fine draw]
  rfl

def ready (rng : Rng) : LibState where
  rng := rng
  context := sm2Context
  ernum := false
  g := sm2G
  setSeed := true
  successExcuted := true

theorem ready_attached (rng : Rng) : (ready rng).Attached := ⟨rfl, rfl, rfl⟩

theorem sm2Init_start {fuel : Nat} {drawn : Nat × Rng}
    (draw : bigdig fuel 8 16 (irand 0 mirsysRng) = some drawn) :
    start.sm2Init fuel = some (0, ready (startupRng drawn)) := by
  have seeded : start.mirsys.ensureSeed = start.mirsys.setRandSeed 0 := by
    rw [ensureSeed, if_neg (by simp [mirsys, start])]
  have fine : start.mirsys.ensureSeed.ernum = false := by rw [seeded, setRandSeed, mirsys]
  have rng : start.mirsys.ensureSeed.rng = irand 0 mirsysRng := by
    rw [seeded, setRandSeed_rng]
  rw [← rng] at draw
  rw [sm2Init_of_not_excuted (by simp [start]), miraclInit_of_draw fine draw, seeded]
  simp only [setRandSeed, mirsys, start, Option.map_some, ready]

/-- The first `SM2_Init` behind `penglai_set_rand_seed`: the seed does not occur. -/
theorem sm2Init_setRandSeed_start {fuel : Nat} {drawn : Nat × Rng} (seed : UInt32)
    (draw : bigdig fuel 8 16 mirsysRng = some drawn) :
    (start.setRandSeed seed).sm2Init fuel = some (0, ready (startupRng drawn)) := by
  have kept : (start.setRandSeed seed).mirsys.ensureSeed = (start.setRandSeed seed).mirsys := by
    rw [ensureSeed, if_pos (by simp [mirsys])]
  have fine : (start.setRandSeed seed).mirsys.ensureSeed.ernum = false := by rw [kept, mirsys]
  have rng : (start.setRandSeed seed).mirsys.ensureSeed.rng = mirsysRng := by rw [kept, mirsys]
  rw [← rng] at draw
  rw [sm2Init_of_not_excuted (by simp [start]), miraclInit_of_draw fine draw, kept]
  simp only [setRandSeed, mirsys, start, Option.map_some, ready]

theorem call_of_ready {fuel : Nat} {detached : Call → LibState → Option Detached}
    {state : LibState} {rng : Rng} {request : Call} (sm2 : request.isSm2 = true)
    (init : state.sm2Init fuel = some (0, ready rng)) :
    state.call fuel detached request = (ready rng).attachedCall fuel request := by
  rw [call, if_pos sm2, init]
  simp only [Option.bind_eq_bind, Option.bind_some, ne_eq, not_true_eq_false, if_false,
    ready_attached, if_true]

theorem ready_call {fuel : Nat} {detached : Call → LibState → Option Detached} {rng : Rng}
    {request : Call} (sm2 : request.isSm2 = true) :
    (ready rng).call fuel detached request = (ready rng).attachedCall fuel request :=
  call_of_ready sm2 (sm2Init_of_excuted rfl)

theorem attachedCall_keyGeneration_of_draw {fuel : Nat} {rng : Rng} {drawn : Bytes 32 × Rng}
    (draw : drawPrikey fuel rng = some drawn) :
    (ready rng).attachedCall fuel .keyGeneration =
      some (.keyPair (sm2MakePubkey drawn.1).1 drawn.1 (sm2MakePubkey drawn.1).2,
        ready drawn.2) := by
  rw [attachedCall_keyGeneration, ready, draw]
  rfl

theorem attachedCall_sign_of_draw {fuel : Nat} {rng next : Rng} {rand : Bytes 32}
    (message : Message) (d : Bytes 32) (draw : genRandom fuel rng = some (rand, next)) :
    (ready rng).attachedCall fuel (.sign message d) =
      some (.signed rand (sm2SignWith message d rand).1 (sm2SignWith message d rand).2,
        ready next) := by
  rw [attachedCall_sign, ready, draw]
  rfl

end LibState

/-! ## The numbers drawn -/

theorem mirsys_draw : 16 ^ 7 ≤ (bigrand (16 ^ 8) mirsysRng).1 := by decide +kernel

/-- The first number below `n` drawn after `SM2_Init` in a process that sets no seed. -/
def unseededNonce : Nat := 0xA3317206A64F634EBC6E8099E5EEB7FE4481E7CA1D1D473F1F09C759998668CA

set_option maxRecDepth 100000 in
theorem unseeded_draws :
    16 ^ 7 ≤ (bigrand (16 ^ 8) (irand 0 mirsysRng)).1 ∧
      (bigrand sm2N (startupRng (bigrand (16 ^ 8) (irand 0 mirsysRng)))).1 = unseededNonce := by
  decide +kernel

theorem unseeded_draw : 16 ^ 7 ≤ (bigrand (16 ^ 8) (irand 0 mirsysRng)).1 := unseeded_draws.1

theorem unseededNonce_drawn :
    (bigrand sm2N (startupRng (bigrand (16 ^ 8) (irand 0 mirsysRng)))).1 = unseededNonce :=
  unseeded_draws.2

end Penglai.Gm
