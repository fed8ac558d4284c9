import Mathlib.Tactic

namespace Penglai

/-! # Runs of a deterministic machine

A machine answers each input with an output and a next state, or does not
return. A run feeds it a list of inputs. -/

universe u v w

variable {σ : Type u} {ι : Type v} {ο : Type w} (step : σ → ι → Option (ο × σ))

def runInputs : σ → List ι → Option (List ο × σ)
  | state, [] => some ([], state)
  | state, input :: inputs => do
      let (output, next) ← step state input
      let (outputs, final) ← runInputs next inputs
      some (output :: outputs, final)

variable {step}

@[simp] theorem runInputs_nil (state : σ) : runInputs step state [] = some ([], state) := rfl

theorem runInputs_cons_eq_some {state final : σ} {input : ι} {inputs : List ι}
    {outputs : List ο} :
    runInputs step state (input :: inputs) = some (outputs, final) ↔
      ∃ output next rest, step state input = some (output, next) ∧
        runInputs step next inputs = some (rest, final) ∧ outputs = output :: rest := by
  rw [runInputs]
  cases taken : step state input with
  | none => simp
  | some answer =>
      rcases answer with ⟨output, next⟩
      cases remaining : runInputs step next inputs with
      | none => simp [remaining]
      | some answers =>
          rcases answers with ⟨rest, last⟩
          simp only [Option.bind_eq_bind, Option.bind_some, remaining, Option.some.injEq,
            Prod.mk.injEq]
          constructor
          · rintro ⟨rfl, rfl⟩
            exact ⟨output, next, rest, ⟨rfl, rfl⟩, remaining, rfl⟩
          · rintro ⟨output', next', rest', ⟨rfl, rfl⟩, again, rfl⟩
            rw [remaining, Option.some.injEq, Prod.mk.injEq] at again
            rw [again.1]
            exact ⟨rfl, again.2⟩

theorem runInputs_append_eq_some {first second : List ι} :
    ∀ {state final : σ} {outputs : List ο},
      runInputs step state (first ++ second) = some (outputs, final) ↔
        ∃ middle earlier later, runInputs step state first = some (earlier, middle) ∧
          runInputs step middle second = some (later, final) ∧ outputs = earlier ++ later := by
  induction first with
  | nil =>
      intro state final outputs
      simp
  | cons input inputs induction =>
      intro state final outputs
      rw [List.cons_append, runInputs_cons_eq_some]
      constructor
      · rintro ⟨output, next, rest, taken, remaining, rfl⟩
        rcases induction.mp remaining with ⟨middle, earlier, later, before, after, rfl⟩
        exact ⟨middle, output :: earlier, later,
          runInputs_cons_eq_some.mpr ⟨output, next, earlier, taken, before, rfl⟩, after, rfl⟩
      · rintro ⟨middle, earlier, later, before, after, rfl⟩
        rcases runInputs_cons_eq_some.mp before with ⟨output, next, rest, taken, remaining, rfl⟩
        exact ⟨output, next, rest ++ later, taken,
          induction.mpr ⟨middle, rest, later, remaining, after, rfl⟩, rfl⟩

theorem runInputs_invariant (invariant : σ → Prop) (admitted : ι → Prop)
    (preserved : ∀ state input output next, invariant state → admitted input →
      step state input = some (output, next) → invariant next) :
    ∀ {inputs : List ι} {state final : σ} {outputs : List ο}, (∀ input ∈ inputs, admitted input) →
      invariant state → runInputs step state inputs = some (outputs, final) → invariant final := by
  intro inputs
  induction inputs with
  | nil =>
      intro state final outputs _ holds run
      rw [runInputs_nil, Option.some.injEq, Prod.mk.injEq] at run
      exact run.2 ▸ holds
  | cons input inputs induction =>
      intro state final outputs all holds run
      rcases runInputs_cons_eq_some.mp run with ⟨output, next, rest, taken, remaining, _⟩
      have here := all input (by simp)
      exact induction (fun other member => all other (by simp [member]))
        (preserved state input output next holds here taken) remaining

/-- Two runs on the same admitted inputs keep a relation that two steps keep. -/
theorem runInputs_related (related : σ → σ → Prop) (admitted : ι → Prop)
    (preserved : ∀ left right input leftOutput leftNext rightOutput rightNext,
      related left right → admitted input → step left input = some (leftOutput, leftNext) →
      step right input = some (rightOutput, rightNext) → related leftNext rightNext) :
    ∀ {inputs : List ι} {left right leftFinal rightFinal : σ} {leftOutputs rightOutputs : List ο},
      (∀ input ∈ inputs, admitted input) → related left right →
      runInputs step left inputs = some (leftOutputs, leftFinal) →
      runInputs step right inputs = some (rightOutputs, rightFinal) →
      related leftFinal rightFinal := by
  intro inputs
  induction inputs with
  | nil =>
      intro left right leftFinal rightFinal leftOutputs rightOutputs _ holds leftRun rightRun
      rw [runInputs_nil, Option.some.injEq, Prod.mk.injEq] at leftRun rightRun
      exact leftRun.2 ▸ rightRun.2 ▸ holds
  | cons input inputs induction =>
      intro left right leftFinal rightFinal leftOutputs rightOutputs all holds leftRun rightRun
      rcases runInputs_cons_eq_some.mp leftRun with ⟨_, leftNext, _, leftTaken, leftRest, _⟩
      rcases runInputs_cons_eq_some.mp rightRun with ⟨_, rightNext, _, rightTaken, rightRest, _⟩
      have here := all input (by simp)
      exact induction (fun other member => all other (by simp [member]))
        (preserved left right input _ leftNext _ rightNext holds here leftTaken rightTaken)
        leftRest rightRest

end Penglai
