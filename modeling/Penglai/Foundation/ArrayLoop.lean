import Penglai.Foundation.Loop

namespace Penglai

/-! # Loops that store into an array

The loop `for i: a[target i] = value i a`, where iteration `i` reads only cells
that no earlier iteration has stored into, stores what it would store into the
initial array, and leaves every other cell alone. In-place loops are of this
form as long as they read at or ahead of the cell they write. -/

universe u

variable {α : Type u} [Inhabited α] {size : Nat}

theorem getElem!_set! (state : Vector α size) (index cell : Nat) (item : α) :
    (state.set! index item)[cell]! =
      if index = cell ∧ cell < size then item else state[cell]! := by
  by_cases inside : cell < size
  · rw [getElem!_pos _ cell inside, getElem!_pos _ cell inside, Vector.set!_eq_setIfInBounds,
      Vector.getElem_setIfInBounds]
    simp [inside]
  · rw [getElem!_neg _ cell inside, getElem!_neg _ cell inside]
    simp [inside]

/-- Iteration `i` computes from `state` what it computes from `initial`, as long
as the two agree outside the targets of earlier iterations. -/
def ReadsAhead (start : Nat) (target : Nat → Nat) (value : Nat → Vector α size → α)
    (initial : Vector α size) (count : Nat) : Prop :=
  ∀ done < count, ∀ state : Vector α size,
    (∀ cell, (∀ earlier < done, target (start + earlier) ≠ cell) → state[cell]! = initial[cell]!) →
    value (start + done) state = value (start + done) initial

variable {start count : Nat} {target : Nat → Nat} {value : Nat → Vector α size → α}
  {initial : Vector α size}

private theorem forRange_set_invariant (readsAhead : ReadsAhead start target value initial count)
    (injective : ∀ i < count, ∀ j < count, target (start + i) = target (start + j) → i = j) :
    ∀ done ≤ count, ∀ cell,
      ((∀ earlier < done, target (start + earlier) ≠ cell) →
        (forRange start done (fun i state => state.set! (target i) (value i state)) initial)[cell]! =
          initial[cell]!) ∧
      (∀ earlier < done, target (start + earlier) = cell → cell < size →
        (forRange start done (fun i state => state.set! (target i) (value i state)) initial)[cell]! =
          value (start + earlier) initial) := by
  intro done
  induction done with
  | zero => simp
  | succ done induction =>
      intro bound cell
      have before := induction (by omega)
      have item := readsAhead done (by omega) _ (fun other untouched => (before other).1 untouched)
      rw [forRange_succ, getElem!_set!, item]
      constructor
      · intro untouched
        have notHere : ¬(target (start + done) = cell ∧ cell < size) :=
          fun here => untouched done (by omega) here.1
        rw [if_neg notHere]
        exact (before cell).1 (fun earlier inside => untouched earlier (by omega))
      · intro earlier inside hit valid
        by_cases latest : earlier = done
        · subst latest
          rw [if_pos ⟨hit, valid⟩]
        · have notHere : ¬(target (start + done) = cell ∧ cell < size) := by
            rintro ⟨here, -⟩
            exact latest (injective earlier (by omega) done (by omega) (hit.trans here.symm))
          rw [if_neg notHere]
          exact (before cell).2 earlier (by omega) hit valid

theorem getElem!_forRange_set (readsAhead : ReadsAhead start target value initial count)
    (injective : ∀ i < count, ∀ j < count, target (start + i) = target (start + j) → i = j)
    {done : Nat} (inside : done < count) (valid : target (start + done) < size) :
    (forRange start count (fun i state => state.set! (target i) (value i state)) initial)[
        target (start + done)]! = value (start + done) initial :=
  (forRange_set_invariant readsAhead injective count le_rfl _).2 done inside rfl valid

theorem getElem!_forRange_set_of_ne (readsAhead : ReadsAhead start target value initial count)
    (injective : ∀ i < count, ∀ j < count, target (start + i) = target (start + j) → i = j)
    {cell : Nat} (untouched : ∀ done < count, target (start + done) ≠ cell) :
    (forRange start count (fun i state => state.set! (target i) (value i state)) initial)[cell]! =
      initial[cell]! :=
  (forRange_set_invariant readsAhead injective count le_rfl cell).1 untouched

/-! ## Consecutive cells -/

theorem getElem!_forRange_set_here {start count : Nat} {value : Nat → Vector α size → α}
    {initial : Vector α size}
    (readsAhead : ∀ done < count, ∀ state : Vector α size,
      (∀ cell, cell < start ∨ start + done ≤ cell → state[cell]! = initial[cell]!) →
      value (start + done) state = value (start + done) initial)
    (cell : Nat) :
    (forRange start count (fun i state => state.set! i (value i state)) initial)[cell]! =
      if start ≤ cell ∧ cell < start + count ∧ cell < size then value cell initial
      else initial[cell]! := by
  have readsAhead : ReadsAhead start (fun i => i) value initial count := by
    intro done bound state agree
    exact readsAhead done bound state fun cell outside =>
      agree cell fun earlier inside => by simp only; omega
  have injective : ∀ i < count, ∀ j < count, start + i = start + j → i = j := by omega
  split_ifs with inside
  · rcases Nat.exists_eq_add_of_le inside.1 with ⟨done, rfl⟩
    exact getElem!_forRange_set readsAhead injective (by omega) inside.2.2
  · by_cases valid : cell < size
    · exact getElem!_forRange_set_of_ne readsAhead injective (by omega)
    · rw [getElem!_neg _ cell valid, getElem!_neg _ cell valid]

theorem getElem!_forRange_set_from {base count : Nat} {value : Nat → Vector α size → α}
    {initial : Vector α size}
    (readsAhead : ∀ done < count, ∀ state : Vector α size,
      (∀ cell, cell < base ∨ base + done ≤ cell → state[cell]! = initial[cell]!) →
      value done state = value done initial)
    (cell : Nat) :
    (forRange 0 count (fun i state => state.set! (base + i) (value i state)) initial)[cell]! =
      if base ≤ cell ∧ cell < base + count ∧ cell < size then value (cell - base) initial
      else initial[cell]! := by
  have readsAhead : ReadsAhead 0 (fun i => base + i) value initial count := by
    intro done bound state agree
    rw [Nat.zero_add]
    exact readsAhead done bound state fun cell outside =>
      agree cell fun earlier inside => by simp only; omega
  have injective : ∀ i < count, ∀ j < count, base + (0 + i) = base + (0 + j) → i = j := by omega
  split_ifs with inside
  · rcases Nat.exists_eq_add_of_le inside.1 with ⟨done, rfl⟩
    have stored := getElem!_forRange_set readsAhead injective
      (show done < count by omega) (show base + (0 + done) < size by omega)
    rwa [Nat.zero_add, show done = base + done - base by omega,
      show base + (base + done - base) = base + done by omega] at stored
  · by_cases valid : cell < size
    · exact getElem!_forRange_set_of_ne readsAhead injective (by omega)
    · rw [getElem!_neg _ cell valid, getElem!_neg _ cell valid]

end Penglai
