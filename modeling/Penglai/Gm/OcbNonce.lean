import Penglai.Gm.OcbBits

namespace Penglai.Gm

/-! # The nonce block

The marker bit stands in front of the nonce, so that nonces of different lengths give
different blocks. The header declares 16 bytes for a nonce; with all of them there is no
room for the marker. -/

/-- Two nonces are formatted within the buffer, and differently unless they are one. -/
def FormatsApart (nonce nonce' : List UInt8) : Prop :=
  (formatNonce nonce).isSome = true ∧ (formatNonce nonce').isSome = true ∧
  ∀ offset offset', formatNonce nonce = some offset → formatNonce nonce' = some offset' →
    firstBlock offset = firstBlock offset' → nonce = nonce'

theorem replicate_append_one_inj {left right : List UInt8} : ∀ (count count' : Nat),
    List.replicate count 0 ++ 1 :: left = List.replicate count' 0 ++ 1 :: right → left = right
  | 0, 0, same => by simpa using same
  | 0, count' + 1, same => by simp [List.replicate_succ] at same
  | count + 1, 0, same => by simp [List.replicate_succ] at same
  | count + 1, count' + 1, same => by
      rw [List.replicate_succ, List.replicate_succ, List.cons_append, List.cons_append,
        List.cons.injEq] at same
      exact replicate_append_one_inj count count' same.2

theorem formatNonce_isSome_iff (nonce : List UInt8) :
    (formatNonce nonce).isSome = true ↔ nonce.length ≤ 15 := by
  constructor
  · intro inside
    by_contra long
    have below : storeOffset (Vector.replicate 24 0) (15 - (nonce.length : Int)) (· ||| 1) = none :=
      if_neg (by omega)
    rw [formatNonce, below] at inside
    cases inside
  · intro short
    rcases formatNonce_spec short with ⟨offset, formatted, _⟩
    rw [formatted]
    rfl

theorem formatNonce_inj {nonce nonce' : List UInt8} (short : nonce.length ≤ 15)
    (short' : nonce'.length ≤ 15) {offset offset' : Bytes 24}
    (formatted : formatNonce nonce = some offset) (formatted' : formatNonce nonce' = some offset')
    (same : firstBlock offset = firstBlock offset') : nonce = nonce' := by
  rcases formatNonce_spec short with ⟨_, written, cells⟩
  rcases formatNonce_spec short' with ⟨_, written', cells'⟩
  rw [formatted, Option.some.injEq] at written
  rw [formatted', Option.some.injEq] at written'
  subst written written'
  have bytes := congrArg Vector.toList same
  rw [firstBlock_toList short cells, firstBlock_toList short' cells'] at bytes
  exact replicate_append_one_inj _ _ bytes

/-- Nonces are formatted in the buffer and apart from each other exactly while both leave
room for the marker. -/
theorem formatsApart_iff (nonce nonce' : List UInt8) :
    FormatsApart nonce nonce' ↔ nonce.length ≤ 15 ∧ nonce'.length ≤ 15 := by
  rw [FormatsApart, formatNonce_isSome_iff, formatNonce_isSome_iff]
  constructor
  · rintro ⟨short, short', -⟩
    exact ⟨short, short'⟩
  · rintro ⟨short, short'⟩
    exact ⟨short, short', fun offset offset' => formatNonce_inj short short'⟩

theorem wholeNonce_outOfBounds :
    ¬∀ nonce nonce' : List UInt8, nonce.length ≤ 16 → nonce'.length ≤ 16 →
      FormatsApart nonce nonce' := by
  intro apart
  have inside := (apart (List.replicate 16 0) [] (by decide) (by decide)).1
  exact absurd ((formatNonce_isSome_iff _).mp inside) (by decide)

end Penglai.Gm
