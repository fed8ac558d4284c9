import Mathlib.Tactic

namespace Penglai

/-! # Rejection sampling

A generator answers a request below `w` with a number below `w`. Its answers are
listed in advance here, so that what holds for every list holds for every
generator, and a list that leads to an outcome shows that the outcome can occur. -/

/-- `do x = draw(w) while (reject(x))` on the listed answers, with those not used.
A number that is not below `w` is no answer. -/
def drawUntil (w : Nat) (reject : Nat → Bool) : List Nat → Option (Nat × List Nat)
  | [] => none
  | x :: results =>
      if w ≤ x then none
      else if reject x then drawUntil w reject results
      else some (x, results)

theorem drawUntil_of_rejected {w x : Nat} {reject : Nat → Bool} (below : x < w)
    (rejected : reject x = true) (results : List Nat) :
    drawUntil w reject (x :: results) = drawUntil w reject results := by
  rw [drawUntil, if_neg (by omega), if_pos rejected]

theorem drawUntil_of_accepted {w x : Nat} {reject : Nat → Bool} (below : x < w)
    (accepted : reject x = false) (results : List Nat) :
    drawUntil w reject (x :: results) = some (x, results) := by
  have notRejected : ¬reject x = true := by simp [accepted]
  rw [drawUntil, if_neg (by omega), if_neg notRejected]

theorem drawUntil_bounds {w x : Nat} {reject : Nat → Bool} {rest : List Nat} :
    ∀ {results : List Nat}, drawUntil w reject results = some (x, rest) →
      x < w ∧ reject x = false
  | [], drawn => by cases drawn
  | first :: results, drawn => by
      rw [drawUntil] at drawn
      by_cases outside : w ≤ first
      · rw [if_pos outside] at drawn
        cases drawn
      · rw [if_neg outside] at drawn
        by_cases rejected : reject first = true
        · rw [if_pos rejected] at drawn
          exact drawUntil_bounds drawn
        · rw [if_neg rejected, Option.some.injEq, Prod.mk.injEq] at drawn
          rw [← drawn.1]
          exact ⟨by omega, by simpa using rejected⟩

end Penglai
