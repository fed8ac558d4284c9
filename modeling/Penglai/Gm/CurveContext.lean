import Penglai.Gm.Startup

namespace Penglai.Gm

/-! # The curve context over histories of calls

`mirsys` clears the context, and only the first `SM2_Init` installs it. A history is in
one of three phases. -/

inductive Phase where
  | fresh
  | attached
  | lost
  deriving DecidableEq

namespace Phase

def next : Phase → Call → Phase
  | fresh, request => if request.isSm2 then attached else fresh
  | attached, .setRandSeed _ => lost
  | phase, _ => phase

def after (calls : List Call) : Phase := calls.foldl next fresh

/-- What a phase says about the state of the library. -/
def Stands : Phase → LibState → Prop
  | fresh, state => state.successExcuted = false
  | attached, state => state.successExcuted = true ∧ state.setSeed = true ∧ state.Attached
  | lost, state =>
      state.successExcuted = true ∧ state.setSeed = true ∧ state.context = clearedContext

theorem next_attached {request : Call} (keeps : ¬LibState.Reseeds request) :
    attached.next request = attached := by
  cases request with
  | setRandSeed seed => exact absurd trivial keeps
  | readRand size => rfl
  | makePubkey priKey => rfl
  | keyGeneration => rfl
  | sign message d => rfl
  | verify message key signature => rfl

theorem next_lost (request : Call) : lost.next request = lost := by
  cases request with
  | setRandSeed seed => rfl
  | readRand size => rfl
  | makePubkey priKey => rfl
  | keyGeneration => rfl
  | sign message d => rfl
  | verify message key signature => rfl

theorem foldl_lost (calls : List Call) : calls.foldl next lost = lost := by
  induction calls with
  | nil => rfl
  | cons request calls induction => rw [List.foldl_cons, next_lost, induction]

theorem foldl_attached_ne_lost_iff (calls : List Call) :
    calls.foldl next attached ≠ lost ↔ ∀ request ∈ calls, ¬LibState.Reseeds request := by
  induction calls with
  | nil => simp
  | cons request calls induction =>
      rw [List.foldl_cons, List.forall_mem_cons, ← induction]
      by_cases keeps : LibState.Reseeds request
      · rcases LibState.reseeds_iff.mp keeps with ⟨seed, rfl⟩
        rw [show attached.next (.setRandSeed seed) = lost from rfl, foldl_lost]
        simp [keeps]
      · rw [next_attached keeps]
        simp [keeps]

def SeededFirst (calls : List Call) : Prop :=
  ∀ before seed later, calls = before ++ .setRandSeed seed :: later →
    before.any Call.isSm2 = false

theorem seededFirst_cons_of_sm2 {request : Call} (sm2 : request.isSm2 = true)
    (calls : List Call) :
    SeededFirst (request :: calls) ↔ ∀ later ∈ calls, ¬LibState.Reseeds later := by
  constructor
  · intro seededFirst later member reseeds
    rcases List.append_of_mem member with ⟨before, behind, rfl⟩
    rcases LibState.reseeds_iff.mp reseeds with ⟨seed, rfl⟩
    have none := seededFirst (request :: before) seed behind rfl
    rw [List.any_cons, sm2, Bool.true_or] at none
    cases none
  · intro keeps before seed later split
    cases before with
    | nil =>
        rw [List.nil_append, List.cons.injEq] at split
        rw [split.1] at sm2
        cases sm2
    | cons first before =>
        rw [List.cons_append, List.cons.injEq] at split
        exact absurd trivial (keeps (.setRandSeed seed) (by rw [split.2]; simp))

theorem seededFirst_cons_of_not_sm2 {request : Call} (notSm2 : request.isSm2 = false)
    (calls : List Call) : SeededFirst (request :: calls) ↔ SeededFirst calls := by
  constructor
  · intro seededFirst before seed later split
    have none := seededFirst (request :: before) seed later (by rw [split]; rfl)
    rwa [List.any_cons, notSm2, Bool.false_or] at none
  · intro seededFirst before seed later split
    cases before with
    | nil => rfl
    | cons first before =>
        rw [List.cons_append, List.cons.injEq] at split
        rw [List.any_cons, ← split.1, notSm2, Bool.false_or]
        exact seededFirst before seed later split.2

theorem after_ne_lost_iff (calls : List Call) : after calls ≠ lost ↔ SeededFirst calls := by
  rw [after]
  induction calls with
  | nil => simp [SeededFirst]
  | cons request calls induction =>
      rw [List.foldl_cons, next]
      cases sm2 : request.isSm2 with
      | true =>
          rw [if_pos rfl, foldl_attached_ne_lost_iff, seededFirst_cons_of_sm2 sm2]
      | false =>
          rw [if_neg (by decide), induction, seededFirst_cons_of_not_sm2 sm2]

end Phase

/-! ## What a call does to the context -/

namespace LibState

theorem not_reseeds_of_sm2 {request : Call} (sm2 : request.isSm2 = true) :
    ¬Reseeds request := by
  intro reseeds
  rcases reseeds_iff.mp reseeds with ⟨seed, rfl⟩
  cases sm2

theorem ensureSeed_setSeed (state : LibState) : state.ensureSeed.setSeed = true := by
  rw [ensureSeed]
  split
  · assumption
  · exact setRandSeed_setSeed 0 state

theorem mirsys_ensureSeed_ernum (state : LibState) : state.mirsys.ensureSeed.ernum = false := by
  rw [ensureSeed]
  split
  · rw [mirsys]
  · rw [setRandSeed, mirsys]

theorem sm2Init_attached {fuel i : Nat} {state ready : LibState}
    (first : state.successExcuted = false) (init : state.sm2Init fuel = some (i, ready)) :
    ready.successExcuted = true ∧ ready.setSeed = true ∧ ready.Attached := by
  rw [sm2Init_of_not_excuted first, Option.map_eq_some_iff] at init
  rcases init with ⟨seeded, drawn, same⟩
  rcases Option.bind_eq_some_iff.mp drawn with ⟨⟨rand, read⟩, four, last⟩
  have frame := (readRand_frame four).1
  injection last with last
  injection same with _ same
  rw [← same, ← last, frame]
  exact ⟨rfl, ensureSeed_setSeed state.mirsys, rfl, rfl, mirsys_ensureSeed_ernum state⟩

theorem call_of_attached {fuel i : Nat} {detached : Call → LibState → Option Detached}
    {state ready : LibState} {request : Call} (sm2 : request.isSm2 = true)
    (init : state.sm2Init fuel = some (i, ready)) (attached : ready.Attached) :
    state.call fuel detached request = ready.attachedCall fuel request := by
  have zero := (sm2Init_returns init).1
  subst zero
  rw [call, if_pos sm2, init]
  simp only [Option.bind_eq_bind, Option.bind_some, ne_eq, not_true_eq_false, if_false, attached,
    if_true]

theorem call_of_not_attached {fuel i : Nat} {detached : Call → LibState → Option Detached}
    {state ready next : LibState} {request : Call} {response : Response}
    (sm2 : request.isSm2 = true) (init : state.sm2Init fuel = some (i, ready))
    (unattached : ¬ready.Attached)
    (returned : state.call fuel detached request = some (response, next)) :
    next = { ready with rng := next.rng, ernum := next.ernum } := by
  have zero := (sm2Init_returns init).1
  subst zero
  rw [call, if_pos sm2, init, Option.bind_eq_bind, Option.bind_some] at returned
  simp only [ne_eq, not_true_eq_false, if_false, unattached] at returned
  rcases Option.bind_eq_some_iff.mp returned with ⟨outcome, _, last⟩
  injection last with last
  injection last with _ last
  rw [← last]

end LibState

namespace Phase

open LibState

section Calls

variable {fuel : Nat} {detached : Call → LibState → Option Detached}

theorem Stands.sm2Init {phase : Phase} {state ready : LibState} {request : Call} {i : Nat}
    (stands : phase.Stands state) (sm2 : request.isSm2 = true)
    (init : state.sm2Init fuel = some (i, ready)) : (phase.next request).Stands ready := by
  cases phase with
  | fresh =>
      rw [next, if_pos sm2]
      exact sm2Init_attached stands init
  | attached =>
      rw [sm2Init_of_excuted stands.1, Option.some.injEq, Prod.mk.injEq] at init
      rw [next_attached (not_reseeds_of_sm2 sm2), ← init.2]
      exact stands
  | lost =>
      rw [sm2Init_of_excuted stands.1, Option.some.injEq, Prod.mk.injEq] at init
      rw [next_lost, ← init.2]
      exact stands

theorem not_attached_of_lost {state : LibState} (stands : lost.Stands state) :
    ¬state.Attached := by
  rintro ⟨context, -⟩
  rw [stands.2.2] at context
  exact absurd context (by decide)

theorem Stands.body {phase : Phase} {state ready final : LibState} {request : Call} {i : Nat}
    {response : Response} (stands : phase.Stands ready) (settled : phase ≠ fresh)
    (sm2 : request.isSm2 = true) (init : state.sm2Init fuel = some (i, ready))
    (returned : state.call fuel detached request = some (response, final)) :
    phase.Stands final := by
  cases phase with
  | fresh => exact absurd rfl settled
  | attached =>
      rw [call_of_attached sm2 init stands.2.2] at returned
      rw [(attachedCall_frame sm2 returned).1]
      exact stands
  | lost =>
      rw [call_of_not_attached sm2 init (not_attached_of_lost stands) returned]
      exact stands

theorem Stands.readRand {phase : Phase} {state final : LibState} {size : Nat}
    {rand : List UInt8} (stands : phase.Stands state)
    (read : state.readRand fuel size = some (rand, final)) : phase.Stands final := by
  have frame := (readRand_frame read).1
  cases phase with
  | fresh =>
      rw [frame]
      exact (ensureSeed_successExcuted state).trans stands
  | attached =>
      rw [ensureSeed_of_setSeed stands.2.1] at frame
      rw [frame]
      exact stands
  | lost =>
      rw [ensureSeed_of_setSeed stands.2.1] at frame
      rw [frame]
      exact stands

theorem Stands.setRandSeed {phase : Phase} {state : LibState} (stands : phase.Stands state)
    (seed : UInt32) : (phase.next (.setRandSeed seed)).Stands (state.setRandSeed seed) := by
  cases phase with
  | fresh => exact (setRandSeed_successExcuted seed state).trans stands
  | attached =>
      exact ⟨(setRandSeed_successExcuted seed state).trans stands.1,
        setRandSeed_setSeed seed state, by rw [LibState.setRandSeed, mirsys]⟩
  | lost =>
      exact ⟨(setRandSeed_successExcuted seed state).trans stands.1,
        setRandSeed_setSeed seed state, by rw [LibState.setRandSeed, mirsys]⟩

theorem Stands.call {phase : Phase} {state final : LibState} {request : Call}
    {response : Response} (stands : phase.Stands state)
    (returned : state.call fuel detached request = some (response, final)) :
    (phase.next request).Stands final := by
  cases sm2 : request.isSm2 with
  | true =>
      rcases call_of_isSm2 sm2 returned with ⟨ready, init, _⟩
      have settled : phase.next request ≠ fresh := by
        cases phase with
        | fresh => rw [next, if_pos sm2]; decide
        | attached => rw [next_attached (not_reseeds_of_sm2 sm2)]; decide
        | lost => rw [next_lost]; decide
      exact (stands.sm2Init sm2 init).body settled sm2 init returned
  | false =>
      rcases call_of_not_isSm2 sm2 returned with ⟨seed, rfl, rfl⟩ | ⟨size, rand, rfl, read⟩
      · exact stands.setRandSeed seed
      · rw [show phase.next (.readRand size) = phase by cases phase <;> rfl]
        exact stands.readRand read

theorem Stands.run {calls : List Call} :
    ∀ {phase : Phase} {state final : LibState} {responses : List Response},
      phase.Stands state → state.run fuel detached calls = some (responses, final) →
      (calls.foldl next phase).Stands final := by
  induction calls with
  | nil =>
      intro phase state final responses stands returned
      injection returned with same
      injection same with _ same
      exact same ▸ stands
  | cons request calls induction =>
      intro phase state final responses stands returned
      rcases runInputs_cons_eq_some.mp returned with ⟨response, middle, rest, taken, remaining, _⟩
      exact induction (stands.call taken) remaining

end Calls

end Phase

/-! ## Which histories keep the context -/

namespace LibState

def InPlace (state : LibState) : Prop := state.context = sm2Context ∧ state.g = sm2G

section Histories

variable {fuel : Nat} {detached : Call → LibState → Option Detached}

/-- Behind the `SM2_Init` of an operation, the curve context is in place exactly if the
history before it sets no seed behind its first SM2 operation. The operation then does
what it does on the context in place. -/
theorem inPlace_iff {calls : List Call} {responses : List Response} {state ready : LibState}
    {request : Call} {i : Nat} (returned : start.run fuel detached calls = some (responses, state))
    (sm2 : request.isSm2 = true) (init : state.sm2Init fuel = some (i, ready)) :
    (ready.InPlace ↔ Phase.SeededFirst calls) ∧
    (Phase.SeededFirst calls →
      state.call fuel detached request = ready.attachedCall fuel request) := by
  have begun : Phase.fresh.Stands start := rfl
  have ran : (Phase.after calls).Stands state := begun.run returned
  have stands := ran.sm2Init sm2 init
  rw [← Phase.after_ne_lost_iff]
  cases phase : Phase.after calls with
  | lost =>
      rw [phase, Phase.next_lost] at stands
      have cleared : ¬ready.InPlace := by
        rintro ⟨context, -⟩
        rw [stands.2.2] at context
        exact absurd context (by decide)
      simp [cleared]
  | fresh =>
      rw [phase, Phase.next, if_pos sm2] at stands
      rcases stands with ⟨_, _, context, g, fine⟩
      exact ⟨⟨fun _ => by decide, fun _ => ⟨context, g⟩⟩,
        fun _ => call_of_attached sm2 init ⟨context, g, fine⟩⟩
  | attached =>
      rw [phase, Phase.next_attached (not_reseeds_of_sm2 sm2)] at stands
      rcases stands with ⟨_, _, context, g, fine⟩
      exact ⟨⟨fun _ => by decide, fun _ => ⟨context, g⟩⟩,
        fun _ => call_of_attached sm2 init ⟨context, g, fine⟩⟩

end Histories

theorem run_makePubkey_setRandSeed (priKey : Bytes 32) (seed : UInt32) :
    ∃ response state,
      start.run 1 (fun _ _ => none) [.makePubkey priKey, .setRandSeed seed] =
        some ([response, .done], state) ∧
      state.successExcuted = true ∧ state.context = clearedContext := by
  have init : start.sm2Init 1 =
      some (0, ready (startupRng (bigrand (16 ^ 8) (irand 0 mirsysRng)))) :=
    sm2Init_start (bigdig_of_accepted unseeded_draw)
  have made : start.call 1 (fun _ _ => none) (.makePubkey priKey) =
      some (.pubkey (sm2MakePubkey priKey).1 (sm2MakePubkey priKey).2,
        ready (startupRng (bigrand (16 ^ 8) (irand 0 mirsysRng)))) := by
    rw [call_of_ready rfl init, attachedCall]
  refine ⟨_, _, runInputs_cons_eq_some.mpr ⟨_, _, _, made,
    runInputs_cons_eq_some.mpr ⟨_, _, _, call_setRandSeed 1 _ _ seed, rfl, rfl⟩, rfl⟩, ?_, ?_⟩
  · rw [setRandSeed_successExcuted, ready]
  · rw [setRandSeed, mirsys]

theorem inPlace_lost :
    ¬∀ (calls : List Call) (responses : List Response) (state ready : LibState),
      start.run 1 (fun _ _ => none) calls = some (responses, state) →
      state.sm2Init 1 = some (0, ready) → ready.InPlace := by
  intro always
  rcases run_makePubkey_setRandSeed (Bytes.ofNat 32 1) 5 with
    ⟨response, state, returned, excuted, cleared⟩
  have inPlace := always _ _ _ _ returned (sm2Init_of_excuted excuted)
  rw [InPlace, cleared] at inPlace
  exact absurd inPlace.1 (by decide)

theorem inPlace_of_seeded : ∃ ready : LibState,
    (start.setRandSeed 5).sm2Init 1 = some (0, ready) ∧ ready.InPlace := by
  have init : (start.setRandSeed 5).sm2Init 1 =
      some (0, ready (startupRng (bigrand (16 ^ 8) mirsysRng))) :=
    sm2Init_setRandSeed_start 5 (bigdig_of_accepted mirsys_draw)
  have returned : start.run 1 (fun _ _ => none) [.setRandSeed 5] =
      some ([.done], start.setRandSeed 5) :=
    runInputs_cons_eq_some.mpr ⟨_, _, _, call_setRandSeed 1 _ _ 5, rfl, rfl⟩
  have first : Phase.SeededFirst [.setRandSeed 5] :=
    (Phase.after_ne_lost_iff _).mp (by decide)
  exact ⟨_, init, (inPlace_iff returned (show Call.keyGeneration.isSm2 = true from rfl)
    init).1.mpr first⟩

end LibState

end Penglai.Gm
