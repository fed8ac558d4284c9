import Penglai.Gm.Startup

namespace Penglai.Gm

/-! # Histories of calls

What a whole history does with its last random seed. -/

namespace LibState

section Histories

variable {fuel : Nat} {detached : Call → LibState → Option Detached}

/-- The last seed of a history that returns: it is what the generator comes from
if the first SM2 operation stands before it, or if none stands behind it; in every
other history the final state is the same for every seed. -/
theorem run_after_seed {before after : List Call} {seed : UInt32} {final : LibState}
    {responses : List Response} (last : ∀ request ∈ after, ¬Reseeds request)
    (returned : start.run fuel detached (before ++ .setRandSeed seed :: after) =
      some (responses, final)) :
    (before.any Call.isSm2 = true ∨ after.any Call.isSm2 = false →
      DrawnFrom (seededRng seed) final.rng) ∧
    (¬(before.any Call.isSm2 = true ∨ after.any Call.isSm2 = false) →
      ∀ other otherResponses otherFinal,
        start.run fuel detached (before ++ .setRandSeed other :: after) =
          some (otherResponses, otherFinal) → otherFinal = final) := by
  rcases runInputs_append_eq_some.mp returned with ⟨middle, _, _, earlier, later, _⟩
  rcases runInputs_cons_eq_some.mp later with ⟨_, seeded, _, seeding, rest, _⟩
  rw [call_setRandSeed, Option.some.injEq, Prod.mk.injEq] at seeding
  rw [← seeding.2] at rest
  have excuted : middle.successExcuted = before.any Call.isSm2 := by
    rw [run_successExcuted earlier, start, Bool.false_or]
  constructor
  · intro kept
    have origin : Seeded (seededRng seed) (middle.setRandSeed seed) :=
      ⟨setRandSeed_setSeed seed middle, by rw [setRandSeed_rng]; exact DrawnFrom.refl _⟩
    have late : (middle.setRandSeed seed).successExcuted = true ∨ after.any Call.isSm2 = false := by
      rw [setRandSeed_successExcuted, excuted]
      exact kept
    exact (origin.run last late rest).drawn
  · intro lost other otherResponses otherFinal otherReturned
    have first : middle.successExcuted = false := by
      rw [excuted]
      exact Bool.eq_false_iff.mpr fun some => lost (Or.inl some)
    have settles : after.any Call.isSm2 = true :=
      Bool.eq_true_of_not_eq_false fun none => lost (Or.inr none)
    rcases runInputs_append_eq_some.mp otherReturned with
      ⟨otherMiddle, _, _, otherEarlier, otherLater, _⟩
    rw [earlier] at otherEarlier
    injection otherEarlier with sameMiddle
    injection sameMiddle with _ sameMiddle
    subst sameMiddle
    rcases runInputs_cons_eq_some.mp otherLater with ⟨_, otherSeeded, _, otherSeeding, otherRest, _⟩
    rw [call_setRandSeed, Option.some.injEq, Prod.mk.injEq] at otherSeeding
    rw [← otherSeeding.2] at otherRest
    have twin : Twin (middle.setRandSeed other) (middle.setRandSeed seed) := by
      right
      constructor
      · rw [setRandSeed, setRandSeed]
      · exact setRandSeed_setSeed seed middle
      · rw [setRandSeed_successExcuted]
        exact first
    exact twin.run last settles otherRest rest

end Histories

theorem run_setRandSeed (fuel : Nat) (detached : Call → LibState → Option Detached)
    (seed : UInt32) :
    start.run fuel detached ([] ++ .setRandSeed seed :: []) =
      some ([.done], start.setRandSeed seed) := by
  rw [List.nil_append, run, runInputs, call_setRandSeed]
  rfl

theorem run_after_seed_only :
    (([] : List Call).any Call.isSm2 = true ∨ ([] : List Call).any Call.isSm2 = false →
      DrawnFrom (seededRng 5) (start.setRandSeed 5).rng) ∧
    (¬(([] : List Call).any Call.isSm2 = true ∨ ([] : List Call).any Call.isSm2 = false) →
      ∀ other otherResponses otherFinal,
        start.run 1 (fun _ _ => none) ([] ++ .setRandSeed other :: []) =
          some (otherResponses, otherFinal) → otherFinal = start.setRandSeed 5) :=
  run_after_seed (by simp) (run_setRandSeed 1 (fun _ _ => none) 5)

set_option maxRecDepth 100000 in
theorem seededRng_one_ne_two : seededRng 1 ≠ seededRng 2 := by
  decide +kernel

/-- The private key that every history `penglai_set_rand_seed(s)`,
`SM2_KeyGeneration` gives. -/
def seededKey : Nat := 0x28214E8196D0A0F68DDBE663ED24D3FCF6D7D98559DFD915020F5281F87A6C60

set_option maxRecDepth 100000 in
theorem seededKey_drawn :
    (bigrand sm2N (startupRng (bigrand (16 ^ 8) mirsysRng))).1 = seededKey := by
  decide +kernel

private theorem exists_drawPrikey {rng : Rng}
    (inside : ((bigrand sm2N rng).1 < 1 || (bigrand sm2N rng).1 > sm2N - 2) = false) :
    ∃ drawn, drawPrikey 1 rng = some drawn :=
  ⟨_, drawPrikey_of_draw 1 (bigrandUntil_of_accepted inside)⟩

theorem seed_ignored : ∃ response final,
    start.run 1 (fun _ _ => none) [.setRandSeed 1, .keyGeneration] =
      some ([.done, response], final) ∧
    start.run 1 (fun _ _ => none) [.setRandSeed 2, .keyGeneration] =
      some ([.done, response], final) := by
  have inside : ((bigrand sm2N (startupRng (bigrand (16 ^ 8) mirsysRng))).1 < 1 ||
      (bigrand sm2N (startupRng (bigrand (16 ^ 8) mirsysRng))).1 > sm2N - 2) = false := by
    rw [seededKey_drawn]
    decide
  rcases exists_drawPrikey inside with ⟨drawn, key⟩
  have both : ∀ seed, (start.setRandSeed seed).call 1 (fun _ _ => none) .keyGeneration =
      some (.keyPair (sm2MakePubkey drawn.1).1 drawn.1 (sm2MakePubkey drawn.1).2,
        ready drawn.2) := by
    intro seed
    have init : (start.setRandSeed seed).sm2Init 1 =
        some (0, ready (startupRng (bigrand (16 ^ 8) mirsysRng))) :=
      sm2Init_setRandSeed_start seed (bigdig_of_accepted mirsys_draw)
    rw [call_of_ready rfl init, attachedCall_keyGeneration_of_draw key]
  refine ⟨_, _, runInputs_cons_eq_some.mpr ⟨_, _, _, call_setRandSeed 1 _ _ 1,
    runInputs_cons_eq_some.mpr ⟨_, _, _, both 1, rfl, rfl⟩, rfl⟩,
    runInputs_cons_eq_some.mpr ⟨_, _, _, call_setRandSeed 1 _ _ 2,
    runInputs_cons_eq_some.mpr ⟨_, _, _, both 2, rfl, rfl⟩, rfl⟩⟩

end LibState

end Penglai.Gm
