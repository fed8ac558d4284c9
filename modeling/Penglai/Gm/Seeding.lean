import Penglai.Gm.Library

namespace Penglai.Gm

/-! # What becomes of the random seed

The generator advances only by draws, except in `penglai_set_rand_seed` and in
the first `SM2_Init`, which resets it. A seed given before that first call is
therefore lost, and a seed given later is kept. -/

/-! ## Draws -/

/-- `rng` is reached from `origin` by drawing words. -/
def DrawnFrom (origin rng : Rng) : Prop := ∃ count, rng = brandNext^[count] origin

def seededRng (seed : UInt32) : Rng := irand seed mirsysRng

theorem DrawnFrom.refl (rng : Rng) : DrawnFrom rng rng := ⟨0, rfl⟩

theorem DrawnFrom.iterate {origin rng : Rng} (drawn : DrawnFrom origin rng) (count : Nat) :
    DrawnFrom origin (brandNext^[count] rng) := by
  rcases drawn with ⟨earlier, rfl⟩
  exact ⟨count + earlier, (Function.iterate_add_apply brandNext count earlier origin).symm⟩

theorem DrawnFrom.bigrandWords {origin : Rng} (w : Nat) : ∀ (fuel m value : Nat) {rng : Rng},
    DrawnFrom origin rng → DrawnFrom origin (bigrandWords w fuel m value rng).2
  | 0, _, _, _, drawn => drawn
  | fuel + 1, m, value, rng, drawn => by
      have next : DrawnFrom origin (brand rng).2 := drawn.iterate 1
      rw [bigrandWords_succ]
      split
      · exact next.bigrandWords w fuel _ _
      · exact next

theorem DrawnFrom.bigrandUntil {origin : Rng} {w : Nat} {reject : Nat → Bool} :
    ∀ {fuel x : Nat} {rng next : Rng}, DrawnFrom origin rng →
      bigrandUntil w reject fuel rng = some (x, next) → DrawnFrom origin next
  | 0, _, _, _, _, returned => by cases returned
  | fuel + 1, x, rng, next, drawn, returned => by
      have advanced : DrawnFrom origin (bigrand w rng).2 := drawn.bigrandWords w (bigLen w + 1) 0 0
      rw [bigrandUntil_succ] at returned
      split at returned
      · exact advanced.bigrandUntil returned
      · rw [Option.some.injEq] at returned
        rwa [returned] at advanced

theorem DrawnFrom.readBlock {origin : Rng} {fuel size blocks i : Nat}
    {state next : List UInt8 × Rng} (drawn : DrawnFrom origin state.2)
    (returned : LibState.readBlock fuel size blocks i state = some next) :
    DrawnFrom origin next.2 := by
  rcases Option.bind_eq_some_iff.mp returned with ⟨⟨x, rng⟩, draw, last⟩
  simp only [Option.some.injEq] at last
  rw [← last]
  exact drawn.bigrandUntil draw

theorem DrawnFrom.drawPrikey {origin rng : Rng} {fuel : Nat} {drawn : Bytes 32 × Rng}
    (before : DrawnFrom origin rng) (returned : drawPrikey fuel rng = some drawn) :
    DrawnFrom origin drawn.2 := by
  rcases Option.bind_eq_some_iff.mp returned with ⟨⟨x, next⟩, draw, last⟩
  simp only [Option.some.injEq] at last
  rw [← last]
  exact before.bigrandUntil draw

theorem DrawnFrom.genRandom {origin rng : Rng} {fuel : Nat} {drawn : Bytes 32 × Rng}
    (before : DrawnFrom origin rng) (returned : genRandom fuel rng = some drawn) :
    DrawnFrom origin drawn.2 := by
  rcases Option.bind_eq_some_iff.mp returned with ⟨⟨x, next⟩, draw, last⟩
  simp only [Option.some.injEq] at last
  rw [← last]
  exact before.bigrandUntil draw

/-! ## One call -/

namespace LibState

structure Seeded (origin : Rng) (state : LibState) : Prop where
  setSeed : state.setSeed = true
  drawn : DrawnFrom origin state.rng

theorem Seeded.withRng {origin rng : Rng} {state : LibState} (seeded : Seeded origin state)
    (drawn : DrawnFrom origin rng) : Seeded origin { state with rng } := ⟨seeded.setSeed, drawn⟩

theorem readRand_frame {fuel size : Nat} {state next : LibState} {rand : List UInt8}
    (returned : state.readRand fuel size = some (rand, next)) :
    next = { state.ensureSeed with rng := next.rng } ∧
      ∀ {origin : Rng}, DrawnFrom origin state.ensureSeed.rng → DrawnFrom origin next.rng := by
  rw [readRand] at returned
  by_cases failed : state.ensureSeed.ernum = true
  · simp only [failed, if_true, Option.some.injEq, Prod.mk.injEq] at returned
    rw [← returned.2]
    exact ⟨rfl, id⟩
  · simp only [if_neg failed] at returned
    rcases Option.bind_eq_some_iff.mp returned with ⟨⟨bytes, rng⟩, looped, last⟩
    simp only [Option.some.injEq, Prod.mk.injEq] at last
    rw [← last.2]
    refine ⟨rfl, fun {origin} drawn => ?_⟩
    exact forRangeM_preserves (fun state => DrawnFrom origin state.2)
      (fun i state next => DrawnFrom.readBlock) drawn looped

theorem sm2Init_of_not_excuted {fuel : Nat} {state : LibState}
    (first : state.successExcuted = false) :
    state.sm2Init fuel = (state.miraclInit fuel).map fun ready =>
      (0, { ready with context := sm2Context, g := sm2G, successExcuted := true }) := by
  have notExcuted : ¬state.successExcuted = true := by simp [first]
  rw [sm2Init, if_neg notExcuted]
  cases state.miraclInit fuel with
  | none => rfl
  | some ready => exact congrArg some ready.installCurve_eq

theorem sm2Init_of_excuted {fuel : Nat} {state : LibState} (again : state.successExcuted = true) :
    state.sm2Init fuel = some (0, state) := by
  rw [sm2Init, if_pos again]

theorem sm2Init_returns {fuel i : Nat} {state next : LibState}
    (returned : state.sm2Init fuel = some (i, next)) : i = 0 ∧ next.successExcuted = true := by
  cases excuted : state.successExcuted with
  | true =>
      rw [sm2Init_of_excuted excuted, Option.some.injEq, Prod.mk.injEq] at returned
      exact ⟨returned.1.symm, returned.2 ▸ excuted⟩
  | false =>
      rw [sm2Init_of_not_excuted excuted, Option.map_eq_some_iff] at returned
      rcases returned with ⟨ready, _, same⟩
      rw [Prod.mk.injEq] at same
      exact ⟨same.1.symm, by rw [← same.2]⟩

/-- Behind `SM2_Init`, an operation changes nothing but the generator, and that by
draws. -/
theorem attachedCall_frame {fuel : Nat} {state next : LibState} {request : Call}
    {response : Response} (sm2 : request.isSm2 = true)
    (returned : state.attachedCall fuel request = some (response, next)) :
    next = { state with rng := next.rng } ∧
      ∀ {origin : Rng}, DrawnFrom origin state.rng → DrawnFrom origin next.rng := by
  cases request with
  | setRandSeed seed => cases sm2
  | readRand size => cases sm2
  | makePubkey priKey =>
      injection returned with same
      injection same with _ same
      exact same ▸ ⟨rfl, id⟩
  | keyGeneration =>
      rw [attachedCall_keyGeneration, Option.map_eq_some_iff] at returned
      rcases returned with ⟨drawn, draw, last⟩
      injection last with _ same
      rw [← same]
      exact ⟨rfl, fun before => before.drawPrikey draw⟩
  | sign message d =>
      rw [attachedCall_sign, Option.map_eq_some_iff] at returned
      rcases returned with ⟨drawn, draw, last⟩
      injection last with _ same
      rw [← same]
      exact ⟨rfl, fun before => before.genRandom draw⟩
  | verify message key signature =>
      injection returned with same
      injection same with _ same
      exact same ▸ ⟨rfl, id⟩

section Calls

variable {fuel : Nat} {detached : Call → LibState → Option Detached}

theorem call_of_isSm2 {state next : LibState} {request : Call} {response : Response}
    (sm2 : request.isSm2 = true)
    (returned : state.call fuel detached request = some (response, next)) :
    ∃ ready, state.sm2Init fuel = some (0, ready) ∧ next.setSeed = ready.setSeed ∧
      next.successExcuted = ready.successExcuted ∧
      ∀ {origin : Rng}, DrawnFrom origin ready.rng → DrawnFrom origin next.rng := by
  rw [call, if_pos sm2] at returned
  rcases Option.bind_eq_some_iff.mp returned with ⟨⟨i, ready⟩, init, body⟩
  have zero := (sm2Init_returns init).1
  subst zero
  refine ⟨ready, init, ?_⟩
  simp only [ne_eq, not_true_eq_false, if_false] at body
  by_cases attached : ready.Attached
  · rw [if_pos attached] at body
    rcases attachedCall_frame sm2 body with ⟨frame, drawn⟩
    rw [frame]
    exact ⟨rfl, rfl, drawn⟩
  · rw [if_neg attached] at body
    rcases Option.bind_eq_some_iff.mp body with ⟨outcome, _, last⟩
    injection last with last
    injection last with _ last
    rw [← last]
    exact ⟨rfl, rfl, fun drawn => drawn.iterate _⟩

theorem call_of_not_isSm2 {state next : LibState} {request : Call} {response : Response}
    (notSm2 : request.isSm2 = false)
    (returned : state.call fuel detached request = some (response, next)) :
    (∃ seed, request = .setRandSeed seed ∧ next = state.setRandSeed seed) ∨
      ∃ size rand, request = .readRand size ∧ state.readRand fuel size = some (rand, next) := by
  cases request with
  | setRandSeed seed =>
      rw [call_setRandSeed, Option.some.injEq, Prod.mk.injEq] at returned
      exact Or.inl ⟨seed, rfl, returned.2.symm⟩
  | readRand size =>
      rw [call_readRand, Option.map_eq_some_iff] at returned
      rcases returned with ⟨⟨rand, after⟩, read, last⟩
      injection last with _ last
      subst last
      exact Or.inr ⟨size, rand, rfl, read⟩
  | makePubkey priKey => cases notSm2
  | keyGeneration => cases notSm2
  | sign message d => cases notSm2
  | verify message key signature => cases notSm2

theorem call_successExcuted {state next : LibState} {request : Call} {response : Response}
    (returned : state.call fuel detached request = some (response, next)) :
    next.successExcuted = (state.successExcuted || request.isSm2) := by
  cases sm2 : request.isSm2 with
  | true =>
      rcases call_of_isSm2 sm2 returned with ⟨ready, init, _, excuted, _⟩
      rw [excuted, (sm2Init_returns init).2, Bool.or_true]
  | false =>
      rw [Bool.or_false]
      rcases call_of_not_isSm2 sm2 returned with ⟨seed, _, same⟩ | ⟨size, rand, _, read⟩
      · rw [same]
        exact setRandSeed_successExcuted seed state
      · rw [(readRand_frame read).1]
        exact ensureSeed_successExcuted state

theorem run_successExcuted {calls : List Call} :
    ∀ {state final : LibState} {responses : List Response},
      state.run fuel detached calls = some (responses, final) →
      final.successExcuted = (state.successExcuted || calls.any Call.isSm2) := by
  induction calls with
  | nil =>
      intro state final responses returned
      injection returned with same
      injection same with _ same
      rw [← same, List.any_nil, Bool.or_false]
  | cons request calls induction =>
      intro state final responses returned
      rcases runInputs_cons_eq_some.mp returned with ⟨response, next, rest, taken, remaining, _⟩
      rw [induction remaining, call_successExcuted taken, List.any_cons, Bool.or_assoc]

/-! ## A seed that is kept -/

def Reseeds : Call → Prop
  | .setRandSeed _ => True
  | _ => False

theorem reseeds_iff {request : Call} : Reseeds request ↔ ∃ seed, request = .setRandSeed seed := by
  cases request <;> simp [Reseeds]

theorem Seeded.call {origin : Rng} {state next : LibState} {request : Call} {response : Response}
    (seeded : Seeded origin state) (keeps : ¬Reseeds request)
    (late : state.successExcuted = true ∨ request.isSm2 = false)
    (returned : state.call fuel detached request = some (response, next)) :
    Seeded origin next := by
  cases sm2 : request.isSm2 with
  | true =>
      rcases call_of_isSm2 sm2 returned with ⟨ready, init, setSeed, _, drawn⟩
      have excuted : state.successExcuted = true := by simpa [sm2] using late
      rw [sm2Init_of_excuted excuted] at init
      injection init with same
      injection same with _ same
      subst same
      exact ⟨setSeed.trans seeded.setSeed, drawn seeded.drawn⟩
  | false =>
      rcases call_of_not_isSm2 sm2 returned with ⟨seed, reseeds, _⟩ | ⟨size, rand, _, read⟩
      · exact absurd (reseeds_iff.mpr ⟨seed, reseeds⟩) keeps
      · rcases readRand_frame read with ⟨frame, drawn⟩
        rw [ensureSeed_of_setSeed seeded.setSeed] at frame drawn
        rw [frame]
        exact seeded.withRng (drawn seeded.drawn)

theorem Seeded.run {origin : Rng} {state final : LibState} {calls : List Call}
    {responses : List Response} (seeded : Seeded origin state)
    (keeps : ∀ request ∈ calls, ¬Reseeds request)
    (late : state.successExcuted = true ∨ calls.any Call.isSm2 = false)
    (returned : state.run fuel detached calls = some (responses, final)) :
    Seeded origin final := by
  rcases late with excuted | none
  · have kept := runInputs_invariant
      (fun state => Seeded origin state ∧ state.successExcuted = true)
      (fun request => ¬Reseeds request)
      (fun state request response next holds keeps taken =>
        ⟨holds.1.call keeps (Or.inl holds.2) taken, by
          rw [call_successExcuted taken, holds.2, Bool.true_or]⟩)
      keeps ⟨seeded, excuted⟩ returned
    exact kept.1
  · have notSm2 : ∀ request ∈ calls, request.isSm2 = false := by
      intro request member
      exact Bool.eq_false_iff.mpr (List.any_eq_false.mp none request member)
    exact runInputs_invariant (Seeded origin)
      (fun request => ¬Reseeds request ∧ request.isSm2 = false)
      (fun state request response next holds keeps taken =>
        holds.call keeps.1 (Or.inr keeps.2) taken)
      (fun request member => ⟨keeps request member, notSm2 request member⟩) seeded returned

/-! ## A seed that is lost -/

/-- Two states that differ in the generator alone, before the first `SM2_Init`. -/
structure Unsettled (left right : LibState) : Prop where
  same : left = { right with rng := left.rng }
  setSeed : right.setSeed = true
  first : right.successExcuted = false

theorem Unsettled.sm2Init {left right : LibState} (unsettled : Unsettled left right) :
    left.sm2Init fuel = right.sm2Init fuel := by
  have leftFirst : left.successExcuted = false := by
    rw [unsettled.same]
    exact unsettled.first
  have reset : left.mirsys = right.mirsys := by
    rw [unsettled.same, mirsys, mirsys]
  rw [sm2Init_of_not_excuted leftFirst, sm2Init_of_not_excuted unsettled.first, miraclInit,
    miraclInit, reset]

/-- Equal states, or states that the first `SM2_Init` will make equal. -/
def Twin (left right : LibState) : Prop := left = right ∨ Unsettled left right

theorem Twin.call_eq {left right : LibState} {request : Call} (twin : Twin left right)
    (sm2 : request.isSm2 = true) :
    left.call fuel detached request = right.call fuel detached request := by
  rcases twin with rfl | unsettled
  · rfl
  · rw [LibState.call, LibState.call, if_pos sm2, if_pos sm2, unsettled.sm2Init]

theorem Twin.call {left right leftNext rightNext : LibState} {request : Call}
    {leftResponse rightResponse : Response} (twin : Twin left right) (keeps : ¬Reseeds request)
    (leftTaken : left.call fuel detached request = some (leftResponse, leftNext))
    (rightTaken : right.call fuel detached request = some (rightResponse, rightNext)) :
    Twin leftNext rightNext := by
  cases sm2 : request.isSm2 with
  | true =>
      rw [twin.call_eq sm2, rightTaken] at leftTaken
      injection leftTaken with same
      injection same with _ same
      exact Or.inl same.symm
  | false =>
      rcases twin with rfl | unsettled
      · rw [leftTaken] at rightTaken
        injection rightTaken with same
        injection same with _ same
        exact Or.inl same
      · rcases call_of_not_isSm2 sm2 leftTaken with
          ⟨seed, reseeds, _⟩ | ⟨size, leftRand, asked, leftRead⟩
        · exact absurd (reseeds_iff.mpr ⟨seed, reseeds⟩) keeps
        rcases call_of_not_isSm2 sm2 rightTaken with
          ⟨seed, reseeds, _⟩ | ⟨size', rightRand, asked', rightRead⟩
        · exact absurd (reseeds_iff.mpr ⟨seed, reseeds⟩) keeps
        have leftSeed : left.setSeed = true := by
          rw [unsettled.same]
          exact unsettled.setSeed
        have leftFrame := (readRand_frame leftRead).1
        have rightFrame := (readRand_frame rightRead).1
        rw [ensureSeed_of_setSeed leftSeed, unsettled.same] at leftFrame
        rw [ensureSeed_of_setSeed unsettled.setSeed] at rightFrame
        right
        constructor
        · rw [rightFrame]
          exact leftFrame
        · rw [rightFrame]
          exact unsettled.setSeed
        · rw [rightFrame]
          exact unsettled.first

theorem Twin.run {left right leftFinal rightFinal : LibState} {calls : List Call}
    {leftResponses rightResponses : List Response} (twin : Twin left right)
    (keeps : ∀ request ∈ calls, ¬Reseeds request) (settles : calls.any Call.isSm2 = true)
    (leftRun : left.run fuel detached calls = some (leftResponses, leftFinal))
    (rightRun : right.run fuel detached calls = some (rightResponses, rightFinal)) :
    leftFinal = rightFinal := by
  rcases List.any_eq_true.mp settles with ⟨request, member, sm2⟩
  rcases List.append_of_mem member with ⟨before, after, rfl⟩
  rcases runInputs_append_eq_some.mp leftRun with ⟨leftMiddle, _, _, leftBefore, leftAfter, _⟩
  rcases runInputs_append_eq_some.mp rightRun with ⟨rightMiddle, _, _, rightBefore, rightAfter, _⟩
  have middle : Twin leftMiddle rightMiddle :=
    runInputs_related Twin (fun request => ¬Reseeds request)
      (fun left right request leftResponse leftNext rightResponse rightNext twin keeps leftTaken
        rightTaken => twin.call keeps leftTaken rightTaken)
      (fun request member => keeps request (by simp [member])) twin leftBefore rightBefore
  rcases runInputs_cons_eq_some.mp leftAfter with ⟨_, leftNext, _, leftTaken, leftRest, _⟩
  rcases runInputs_cons_eq_some.mp rightAfter with ⟨_, rightNext, _, rightTaken, rightRest, _⟩
  rw [middle.call_eq sm2, rightTaken] at leftTaken
  injection leftTaken with same
  injection same with _ same
  rw [← same, rightRest] at leftRest
  injection leftRest with same
  injection same with _ same
  exact same.symm

end Calls

end LibState

end Penglai.Gm
