import Mathlib.Tactic

namespace Penglai

/-! # Interleavings

Processes that take turns on one shared state. What a process does next depends on its
own state alone; what it does is an event on the shared state. -/

universe u v w x

/-- What each process does in its next turn, and what an event does. -/
structure Processes (ι : Type u) (α : Type v) (ε : Type w) (σ : Type x) where
  advance : ι → α → Option ε × α
  apply : σ → ε → σ

structure Config (ι : Type u) (α : Type v) (σ : Type x) where
  own : ι → α
  shared : σ

namespace Processes

variable {ι : Type u} {α : Type v} {ε : Type w} {σ : Type x} [DecidableEq ι]
variable (processes : Processes ι α ε σ)

def step (config : Config ι α σ) (turn : ι) : Config ι α σ where
  own := Function.update config.own turn (processes.advance turn (config.own turn)).2
  shared := (processes.advance turn (config.own turn)).1.elim config.shared
    (processes.apply config.shared)

theorem step_own_self (config : Config ι α σ) (turn : ι) :
    (processes.step config turn).own turn = (processes.advance turn (config.own turn)).2 :=
  Function.update_self ..

theorem step_own_other (config : Config ι α σ) {turn i : ι} (other : i ≠ turn) :
    (processes.step config turn).own i = config.own i :=
  Function.update_of_ne other ..

theorem step_shared (config : Config ι α σ) (turn : ι) :
    (processes.step config turn).shared =
      (processes.advance turn (config.own turn)).1.elim config.shared
        (processes.apply config.shared) := rfl

def run (config : Config ι α σ) (schedule : List ι) : Config ι α σ :=
  schedule.foldl processes.step config

@[simp] theorem run_nil (config : Config ι α σ) : processes.run config [] = config := rfl

@[simp] theorem run_concat (config : Config ι α σ) (schedule : List ι) (turn : ι) :
    processes.run config (schedule ++ [turn]) =
      processes.step (processes.run config schedule) turn := by
  simp [run]

/-! ## One process by itself -/

def after (i : ι) (start : α) : Nat → α
  | 0 => start
  | turns + 1 => (processes.advance i (after i start turns)).2

def eventAt (i : ι) (start : α) (turn : Nat) : Option ε :=
  (processes.advance i (processes.after i start turn)).1

def events (i : ι) (start : α) : Nat → List ε
  | 0 => []
  | turns + 1 => events i start turns ++ (processes.eventAt i start turns).toList

omit [DecidableEq ι] in
theorem mem_events_iff (i : ι) (start : α) (turns : Nat) (event : ε) :
    event ∈ processes.events i start turns ↔
      ∃ turn < turns, processes.eventAt i start turn = some event := by
  induction turns with
  | zero => simp [events]
  | succ turns induction =>
      rw [events, List.mem_append, induction, Option.mem_toList]
      constructor
      · rintro (⟨turn, earlier, happens⟩ | happens)
        · exact ⟨turn, by omega, happens⟩
        · exact ⟨turns, by omega, happens⟩
      · rintro ⟨turn, earlier, happens⟩
        cases Nat.lt_succ_iff_lt_or_eq.mp earlier with
        | inl before => exact Or.inl ⟨turn, before, happens⟩
        | inr last => exact Or.inr (last ▸ happens)

/-! ## All schedules -/

theorem own_run (config : Config ι α σ) (schedule : List ι) (i : ι) :
    (processes.run config schedule).own i =
      processes.after i (config.own i) (schedule.count i) := by
  induction schedule using List.reverseRecOn with
  | nil => rfl
  | append_singleton schedule turn induction =>
      rw [run_concat, List.count_append]
      by_cases mine : turn = i
      · subst mine
        rw [step_own_self, induction, List.count_singleton_self]
        rfl
      · rw [processes.step_own_other _ (Ne.symm mine), induction, List.count_singleton,
          beq_false_of_ne mine]
        rfl

/-- Rely and guarantee: what a process keeps in its own turns, and what the events of
all others keep, holds in every schedule. -/
theorem run_rely (i : ι) (invariant : α → σ → Prop) (config : Config ι α σ)
    (initially : invariant (config.own i) config.shared)
    (own : ∀ state shared, invariant state shared →
      invariant (processes.advance i state).2
        ((processes.advance i state).1.elim shared (processes.apply shared)))
    (rely : ∀ other ≠ i, ∀ turn event,
      processes.eventAt other (config.own other) turn = some event →
      ∀ state shared, invariant state shared → invariant state (processes.apply shared event))
    (schedule : List ι) :
    invariant ((processes.run config schedule).own i) (processes.run config schedule).shared := by
  induction schedule using List.reverseRecOn with
  | nil => exact initially
  | append_singleton schedule turn induction =>
      rw [run_concat]
      by_cases mine : turn = i
      · subst mine
        rw [step_own_self, step_shared]
        exact own _ _ induction
      · rw [processes.step_own_other _ (Ne.symm mine), step_shared]
        cases happens : (processes.advance turn ((processes.run config schedule).own turn)).1 with
        | none => exact induction
        | some event =>
            rw [own_run] at happens
            exact rely turn mine _ event happens _ _ induction

theorem shared_concat (config : Config ι α σ) (schedule : List ι) (turn : ι) :
    (processes.run config (schedule ++ [turn])).shared =
      (processes.eventAt turn (config.own turn) (schedule.count turn)).elim
        (processes.run config schedule).shared
        (processes.apply (processes.run config schedule).shared) := by
  rw [run_concat, step_shared, eventAt, own_run]

end Processes

end Penglai
