import Mathlib.Tactic

namespace Penglai

/-! # Cipher block chaining

Every block is combined with the ciphertext in front of it and then encrypted. The
first one is combined with an initial value. -/

universe u

variable {β : Type u} (combine : β → β → β)

def cbcEncrypt (cipher : β → β) : (previous : β) → List β → List β
  | _, [] => []
  | previous, block :: blocks =>
      let ciphertext := cipher (combine block previous)
      ciphertext :: cbcEncrypt cipher ciphertext blocks

def cbcDecrypt (decipher : β → β) : (previous : β) → List β → List β
  | _, [] => []
  | previous, block :: blocks =>
      combine previous (decipher block) :: cbcDecrypt decipher block blocks

variable {combine}

@[simp] theorem cbcEncrypt_length (cipher : β → β) (previous : β) (blocks : List β) :
    (cbcEncrypt combine cipher previous blocks).length = blocks.length := by
  induction blocks generalizing previous with
  | nil => rfl
  | cons block blocks induction =>
      simp only [cbcEncrypt, List.length_cons, induction]

@[simp] theorem cbcDecrypt_length (decipher : β → β) (previous : β) (blocks : List β) :
    (cbcDecrypt combine decipher previous blocks).length = blocks.length := by
  induction blocks generalizing previous with
  | nil => rfl
  | cons block blocks induction =>
      simp only [cbcDecrypt, List.length_cons, induction]

theorem cbcEncrypt_concat (cipher : β → β) (previous : β) (blocks : List β) (block : β) :
    cbcEncrypt combine cipher previous (blocks ++ [block]) =
      cbcEncrypt combine cipher previous blocks ++
        [cipher (combine block ((cbcEncrypt combine cipher previous blocks).getLastD previous))] := by
  induction blocks generalizing previous with
  | nil => rfl
  | cons first blocks induction =>
      rw [List.cons_append, cbcEncrypt, induction, cbcEncrypt, List.getLastD_cons]
      rfl

theorem cbcDecrypt_concat (decipher : β → β) (previous : β) (blocks : List β) (block : β) :
    cbcDecrypt combine decipher previous (blocks ++ [block]) =
      cbcDecrypt combine decipher previous blocks ++
        [combine (blocks.getLastD previous) (decipher block)] := by
  induction blocks generalizing previous with
  | nil => rfl
  | cons first blocks induction =>
      rw [List.cons_append, cbcDecrypt, induction, cbcDecrypt, List.getLastD_cons]
      rfl

theorem cbcDecrypt_cbcEncrypt {cipher decipher : β → β}
    (inverts : ∀ block, decipher (cipher block) = block)
    (cancels : ∀ block previous, combine previous (combine block previous) = block)
    (previous : β) (blocks : List β) :
    cbcDecrypt combine decipher previous (cbcEncrypt combine cipher previous blocks) = blocks := by
  induction blocks generalizing previous with
  | nil => rfl
  | cons block blocks induction =>
      rw [cbcEncrypt, cbcDecrypt, induction, inverts, cancels]

end Penglai
