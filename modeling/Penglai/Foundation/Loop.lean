import Mathlib.Tactic

namespace Penglai

/-! # Counted loops

`forRange start count body` is the loop `for (i = start; i < start + count; i++)`
with a state threaded through the body. The last iteration is the outermost
application, so one step of the recursion is one step of the loop invariant. -/

universe u

variable {σ : Type u}

def forRange (start : Nat) : (count : Nat) → (body : Nat → σ → σ) → σ → σ
  | 0, _, state => state
  | count + 1, body, state => body (start + count) (forRange start count body state)

@[simp] theorem forRange_zero (start : Nat) (body : Nat → σ → σ) (state : σ) :
    forRange start 0 body state = state := rfl

theorem forRange_succ (start count : Nat) (body : Nat → σ → σ) (state : σ) :
    forRange start (count + 1) body state =
      body (start + count) (forRange start count body state) := rfl

/-- An invariant indexed by the number of finished iterations, established
before the loop and preserved by each iteration, holds after the loop. -/
theorem forRange_invariant (invariant : Nat → σ → Prop) {start : Nat}
    {body : Nat → σ → σ} {initial : σ} (holdsInitially : invariant 0 initial) :
    ∀ (count : Nat),
      (∀ done < count, ∀ state, invariant done state →
        invariant (done + 1) (body (start + done) state)) →
      invariant count (forRange start count body initial)
  | 0, _ => holdsInitially
  | count + 1, step => by
      have before := forRange_invariant invariant holdsInitially count
        (fun done bound => step done (by omega))
      exact step count (by omega) _ before

theorem forRange_add (start front back : Nat) (body : Nat → σ → σ) (state : σ) :
    forRange start (front + back) body state =
      forRange (start + front) back body (forRange start front body state) := by
  induction back with
  | zero => rfl
  | succ back induction =>
      rw [← Nat.add_assoc, forRange_succ, forRange_succ, induction, Nat.add_assoc]

theorem forRange_congr {start count : Nat} {body body' : Nat → σ → σ} (state : σ)
    (same : ∀ done < count, ∀ state, body (start + done) state = body' (start + done) state) :
    forRange start count body state = forRange start count body' state := by
  induction count with
  | zero => rfl
  | succ count induction =>
      rw [forRange_succ, forRange_succ, induction fun done bound => same done (by omega),
        same count (by omega)]

/-! ## Loops that can fail -/

/-- The loop stops with `none` at the first iteration that fails. -/
def forRangeM (start : Nat) : (count : Nat) → (body : Nat → σ → Option σ) → σ → Option σ
  | 0, _, state => some state
  | count + 1, body, state => (forRangeM start count body state).bind (body (start + count))

theorem forRangeM_invariant (invariant : Nat → σ → Prop) {start : Nat}
    {body : Nat → σ → Option σ} {initial : σ} (holdsInitially : invariant 0 initial) :
    ∀ (count : Nat),
      (∀ done < count, ∀ state, invariant done state →
        ∃ next, body (start + done) state = some next ∧ invariant (done + 1) next) →
      ∃ final, forRangeM start count body initial = some final ∧ invariant count final
  | 0, _ => ⟨initial, rfl, holdsInitially⟩
  | count + 1, step => by
      rcases forRangeM_invariant invariant holdsInitially count
        (fun done bound => step done (by omega)) with ⟨state, reached, before⟩
      rcases step count (by omega) state before with ⟨next, succeeded, after⟩
      exact ⟨next, by rw [forRangeM, reached, Option.bind_some, succeeded], after⟩

theorem forRangeM_invariant_of_eq_some (invariant : Nat → σ → Prop) {start : Nat}
    {body : Nat → σ → Option σ} {initial : σ} (holdsInitially : invariant 0 initial) :
    ∀ {count : Nat} {final : σ},
      (∀ done < count, ∀ state next, invariant done state →
        body (start + done) state = some next → invariant (done + 1) next) →
      forRangeM start count body initial = some final → invariant count final
  | 0, final, _, reached => by
      rw [forRangeM, Option.some.injEq] at reached
      exact reached ▸ holdsInitially
  | count + 1, final, step, reached => by
      rcases Option.bind_eq_some_iff.mp reached with ⟨state, earlier, last⟩
      have before := forRangeM_invariant_of_eq_some invariant holdsInitially
        (fun done bound => step done (by omega)) earlier
      exact step count (by omega) state final before last

theorem forRangeM_preserves (invariant : σ → Prop) {start : Nat} {body : Nat → σ → Option σ}
    (preserved : ∀ i state next, invariant state → body i state = some next → invariant next)
    {count : Nat} {initial final : σ} (holds : invariant initial)
    (reached : forRangeM start count body initial = some final) : invariant final :=
  forRangeM_invariant_of_eq_some (fun _ => invariant) holds
    (fun done _ state next => preserved (start + done) state next) reached

end Penglai
