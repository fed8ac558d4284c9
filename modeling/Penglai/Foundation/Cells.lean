import Penglai.Foundation.Loop

namespace Penglai

/-! # Loops over the cells of an array

A loop that visits cells one by one, writes each of them once and carries a value
from one to the next. The array may be read by the loop that writes it; as long as
a step looks only at cells the loop has not written yet, the loop computes what the
same steps compute on the array as it was. -/

universe u v

variable {δ : Type u} {κ : Type v}

/-- The carry into step `k`, when step `k` computes `plain k`. -/
def carryInto (plain : Nat → κ → δ × κ) (first : κ) : Nat → κ
  | 0 => first
  | k + 1 => (plain k (carryInto plain first k)).2

def digitOf (plain : Nat → κ → δ × κ) (first : κ) (k : Nat) : δ :=
  (plain k (carryInto plain first k)).1

@[simp] theorem carryInto_zero (plain : Nat → κ → δ × κ) (first : κ) :
    carryInto plain first 0 = first := rfl

theorem carryInto_succ (plain : Nat → κ → δ × κ) (first : κ) (k : Nat) :
    carryInto plain first (k + 1) = (plain k (carryInto plain first k)).2 := rfl

theorem carryInto_invariant (plain : Nat → κ → δ × κ) (first : κ) (invariant : κ → Prop)
    (holds : invariant first) {count : Nat}
    (step : ∀ k < count, ∀ carry, invariant carry → invariant (plain k carry).2) :
    ∀ k ≤ count, invariant (carryInto plain first k)
  | 0, _ => holds
  | k + 1, bound =>
      step k (by omega) _ (carryInto_invariant plain first invariant holds step k (by omega))

def sweepStep (visit : Nat → Nat) (step : (Nat → δ) → Nat → κ → δ × κ) (k : Nat)
    (state : (Nat → δ) × κ) : (Nat → δ) × κ :=
  (Function.update state.1 (visit k) (step state.1 k state.2).1, (step state.1 k state.2).2)

section Sweep

variable {visit : Nat → Nat} {step : (Nat → δ) → Nat → κ → δ × κ}
  {plain : Nat → κ → δ × κ} {initial : Nat → δ} {first : κ} {count : Nat}

/-- Each step reads only cells that no earlier step has written. -/
def ReadsUnwritten (visit : Nat → Nat) (step : (Nat → δ) → Nat → κ → δ × κ)
    (plain : Nat → κ → δ × κ) (initial : Nat → δ) (count : Nat) : Prop :=
  ∀ k < count, ∀ cells : Nat → δ,
    (∀ cell, (∀ earlier < k, visit earlier ≠ cell) → cells cell = initial cell) →
      step cells k = plain k

structure Swept (visit : Nat → Nat) (plain : Nat → κ → δ × κ) (initial : Nat → δ) (first : κ)
    (k : Nat) (state : (Nat → δ) × κ) : Prop where
  carry : state.2 = carryInto plain first k
  written : ∀ earlier < k, state.1 (visit earlier) = digitOf plain first earlier
  untouched : ∀ cell, (∀ earlier < k, visit earlier ≠ cell) → state.1 cell = initial cell

theorem swept_start : Swept visit plain initial first 0 (initial, first) where
  carry := rfl
  written := fun earlier bound => absurd bound (Nat.not_lt_zero earlier)
  untouched := fun _ _ => rfl

theorem swept_step (readsUnwritten : ReadsUnwritten visit step plain initial count)
    (once : ∀ k < count, ∀ earlier < k, visit earlier ≠ visit k) {k : Nat} (inside : k < count)
    {state : (Nat → δ) × κ} (swept : Swept visit plain initial first k state) :
    Swept visit plain initial first (k + 1) (sweepStep visit step k state) := by
  have here : step state.1 k = plain k := readsUnwritten k inside state.1 swept.untouched
  constructor
  · rw [sweepStep, here, swept.carry, carryInto_succ]
  · intro earlier bound
    rw [sweepStep, here, swept.carry]
    rcases Nat.lt_succ_iff_lt_or_eq.mp bound with before | rfl
    · exact (Function.update_of_ne (once k inside earlier before) _ _).trans
        (swept.written earlier before)
    · exact Function.update_self _ _ _
  · intro cell unvisited
    exact (Function.update_of_ne (unvisited k (Nat.lt_succ_self k)).symm _ _).trans
      (swept.untouched cell fun earlier bound => unvisited earlier (by omega))

theorem swept_forRange (readsUnwritten : ReadsUnwritten visit step plain initial count)
    (once : ∀ k < count, ∀ earlier < k, visit earlier ≠ visit k) :
    Swept visit plain initial first count
      (forRange 0 count (sweepStep visit step) (initial, first)) := by
  apply forRange_invariant (Swept visit plain initial first) swept_start
  intro k inside state swept
  rw [Nat.zero_add]
  exact swept_step readsUnwritten once inside swept

end Sweep

/-! ## Loops with a condition -/

variable {σ : Type u}

/-- `for (; i < bound && test; i++)`, with `left` rounds up to the bound. -/
def forWhile (test : σ → Bool) (body : Nat → σ → σ) : (left i : Nat) → σ → Nat × σ
  | 0, i, state => (i, state)
  | left + 1, i, state =>
      if test state then forWhile test body left (i + 1) (body i state) else (i, state)

theorem forRange_succ_first (start count : Nat) (body : Nat → σ → σ) (state : σ) :
    forRange start (count + 1) body state =
      forRange (start + 1) count body (body start state) := by
  rw [Nat.add_comm, forRange_add]
  rfl

/-- A loop whose rounds change nothing once the condition fails might as well run
to its bound. -/
theorem forWhile_eq_forRange {test : σ → Bool} {body : Nat → σ → σ} (invariant : Nat → σ → Prop)
    (step : ∀ i state, invariant i state → invariant (i + 1) (body i state))
    (idle : ∀ i state, invariant i state → test state = false → body i state = state) :
    ∀ (left i : Nat) (state : σ), invariant i state →
      (forWhile test body left i state).2 = forRange i left body state
  | 0, _, _, _ => rfl
  | left + 1, i, state, holds => by
      have rest := forWhile_eq_forRange invariant step idle left (i + 1) (body i state)
        (step i state holds)
      rw [forRange_succ_first, ← rest, forWhile]
      cases failed : test state with
      | true => rw [if_pos rfl]
      | false =>
          rw [if_neg (by decide), idle i state holds failed]
          cases left with
          | zero => rfl
          | succ left => rw [forWhile, failed, if_neg (by decide)]

theorem forWhile_index {test : σ → Bool} {body : Nat → σ → σ} :
    ∀ {left i : Nat} {state : σ}, test (forWhile test body left i state).2 = true →
      (forWhile test body left i state).1 = i + left
  | 0, _, _, _ => rfl
  | left + 1, i, state, holds => by
      rw [forWhile] at holds ⊢
      cases failed : test state with
      | true =>
          rw [failed, if_pos rfl] at holds
          rw [if_pos rfl, forWhile_index holds]
          omega
      | false =>
          rw [failed, if_neg (by decide), failed] at holds
          cases holds

/-- A sweep from the bottom whose last cells are visited only as long as there is a
carry: the cells it skips hold what it would have written. -/
theorem swept_forWhile {step : (Nat → δ) → Nat → κ → δ × κ} {plain : Nat → κ → δ × κ}
    {initial : Nat → δ} {first rest : κ} {test : (Nat → δ) × κ → Bool} {front count : Nat}
    (readsUnwritten : ∀ count, ReadsUnwritten id step plain initial count) (le : front ≤ count)
    (stops : ∀ state, test state = false → state.2 = rest)
    (idle : ∀ i, front ≤ i → plain i rest = (initial i, rest)) :
    Swept id plain initial first count
      (forWhile test (sweepStep id step) (count - front) front
        (forRange 0 front (sweepStep id step) (initial, first))).2 := by
  have once : ∀ count, ∀ i < count, ∀ earlier < i, id earlier ≠ id i :=
    fun _ _ _ _ before => Nat.ne_of_lt before
  rw [forWhile_eq_forRange fun i state => front ≤ i ∧ ∀ cell, i ≤ cell → state.1 cell = initial cell]
  · have whole := forRange_add 0 front (count - front) (sweepStep id step) (initial, first)
    rw [Nat.zero_add, Nat.add_sub_cancel' le] at whole
    rw [← whole]
    exact swept_forRange (readsUnwritten count) (once count)
  · intro i state ⟨above, unwritten⟩
    refine ⟨by omega, fun cell behind => ?_⟩
    exact (Function.update_of_ne (Nat.ne_of_gt behind) _ _).trans (unwritten cell (by omega))
  · intro i state ⟨above, unwritten⟩ stopped
    have here := readsUnwritten (i + 1) i (Nat.lt_succ_self i) state.1 fun cell unvisited => by
      apply unwritten
      by_contra below
      exact unvisited cell (Nat.not_le.mp below) rfl
    simp only [sweepStep, here, stops state stopped, idle i above, id_eq]
    rw [← unwritten i (Nat.le_refl i), Function.update_eq_self, ← stops state stopped]
  · refine ⟨Nat.le_refl front, fun cell behind => ?_⟩
    exact (swept_forRange (readsUnwritten front) (once front)).untouched cell
      fun earlier before => Nat.ne_of_lt (Nat.lt_of_lt_of_le before behind)

end Penglai
