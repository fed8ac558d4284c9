import Mathlib.Tactic

namespace Penglai

/-! # Four-word Feistel networks

A round replaces the first of four words by its combination with a mix of the
other three and rotates the words. Running the keys backwards on the words in
reverse order undoes the run, whatever the mix computes, as long as it does not
tell its first argument from its third. -/

universe u v

structure Quad (α : Type u) where
  x0 : α
  x1 : α
  x2 : α
  x3 : α

variable {α : Type u} {κ : Type v}

def Quad.reverse (quad : Quad α) : Quad α := ⟨quad.x3, quad.x2, quad.x1, quad.x0⟩

@[simp] theorem Quad.reverse_reverse (quad : Quad α) : quad.reverse.reverse = quad := rfl

section Network

variable (combine : α → α → α) (mix : κ → α → α → α → α)

def feistelRound (quad : Quad α) (key : κ) : Quad α :=
  ⟨quad.x1, quad.x2, quad.x3, combine quad.x0 (mix key quad.x1 quad.x2 quad.x3)⟩

def feistelRun (keys : List κ) (quad : Quad α) : Quad α :=
  keys.foldl (feistelRound combine mix) quad

theorem feistelRun_cons (key : κ) (keys : List κ) (quad : Quad α) :
    feistelRun combine mix (key :: keys) quad =
      feistelRun combine mix keys (feistelRound combine mix quad key) := rfl

theorem feistelRun_concat (keys : List κ) (key : κ) (quad : Quad α) :
    feistelRun combine mix (keys ++ [key]) quad =
      feistelRound combine mix (feistelRun combine mix keys quad) key := by
  simp [feistelRun]

variable {combine mix}

theorem feistelRound_reverse (cancels : ∀ left right, combine (combine left right) right = left)
    (symmetric : ∀ key a b c, mix key a b c = mix key c b a) (quad : Quad α) (key : κ) :
    feistelRound combine mix (feistelRound combine mix quad key).reverse key = quad.reverse := by
  simp only [feistelRound, Quad.reverse, Quad.mk.injEq, true_and]
  rw [symmetric key quad.x3 quad.x2 quad.x1, cancels]

theorem feistelRun_reverse (cancels : ∀ left right, combine (combine left right) right = left)
    (symmetric : ∀ key a b c, mix key a b c = mix key c b a) (keys : List κ) (quad : Quad α) :
    feistelRun combine mix keys.reverse (feistelRun combine mix keys quad).reverse =
      quad.reverse := by
  induction keys generalizing quad with
  | nil => rfl
  | cons key rest induction =>
      rw [feistelRun_cons, List.reverse_cons, feistelRun_concat, induction,
        feistelRound_reverse cancels symmetric]

end Network

end Penglai
