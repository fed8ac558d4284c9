import Mathlib.Tactic

namespace Penglai

/-! # `strtol` in base 16

White space, an optional sign, an optional `0x` in front of a digit, the digits;
values outside a 64-bit `long` saturate. -/

def isSpace (c : Char) : Bool := c.toNat = 32 || (9 ≤ c.toNat && c.toNat ≤ 13)

def hexDigit? (c : Char) : Option Nat :=
  if '0' ≤ c ∧ c ≤ '9' then some (c.toNat - 48)
  else if 'a' ≤ c ∧ c ≤ 'f' then some (c.toNat - 87)
  else if 'A' ≤ c ∧ c ≤ 'F' then some (c.toNat - 55)
  else none

def hexValue (text : List Char) : Nat :=
  ((text.takeWhile fun c => (hexDigit? c).isSome).filterMap hexDigit?).foldl
    (fun value digit => value * 16 + digit) 0

def skipPrefix : List Char → List Char
  | '0' :: x :: digit :: rest =>
      if (x = 'x' ∨ x = 'X') ∧ (hexDigit? digit).isSome then digit :: rest
      else '0' :: x :: digit :: rest
  | text => text

def strtol16 (text : List Char) : Int :=
  let value : Int :=
    match text.dropWhile isSpace with
    | '-' :: rest => -(hexValue (skipPrefix rest) : Int)
    | '+' :: rest => hexValue (skipPrefix rest)
    | rest => hexValue (skipPrefix rest)
  max (-2 ^ 63) (min value (2 ^ 63 - 1))

example : strtol16 "0x80200000".toList = 0x80200000 := by decide +kernel

/-! ## Written numbers -/

/-- Hexadecimal digits of a number, in either case and with any leading zeros. -/
structure HexDigits (digits : List Char) (value : Nat) : Prop where
  nonempty : digits ≠ []
  digit : ∀ c ∈ digits, (hexDigit? c).isSome = true
  value_eq : hexValue digits = value

/-- A number as an argument, with or without `0x`. -/
def WritesHex (text : List Char) (value : Nat) : Prop :=
  ∃ digits, HexDigits digits value ∧
    (text = digits ∨ text = '0' :: 'x' :: digits ∨ text = '0' :: 'X' :: digits)

theorem writesHex_of_digits {text : List Char} {value : Nat} (nonempty : text ≠ [])
    (digit : (text.all fun c => (hexDigit? c).isSome) = true) (value_eq : hexValue text = value) :
    WritesHex text value :=
  ⟨text, ⟨nonempty, List.all_eq_true.mp digit, value_eq⟩, Or.inl rfl⟩

theorem not_isSpace_of_digit {c : Char} (digit : (hexDigit? c).isSome = true) :
    isSpace c = false ∧ c ≠ '-' ∧ c ≠ '+' := by
  refine ⟨?_, ?_, ?_⟩
  · have large : 48 ≤ c.toNat := by
      rw [hexDigit?] at digit
      split at digit
      · rename_i bounds
        exact UInt32.le_iff_toNat_le.mp bounds.1
      · split at digit
        · rename_i bounds
          have lower : 97 ≤ c.toNat := UInt32.le_iff_toNat_le.mp bounds.1
          omega
        · split at digit
          · rename_i bounds
            have lower : 65 ≤ c.toNat := UInt32.le_iff_toNat_le.mp bounds.1
            omega
          · cases digit
    simp [isSpace]
    omega
  · rintro rfl
    cases digit
  · rintro rfl
    cases digit

theorem skipPrefix_of_digits {digits : List Char}
    (digit : ∀ c ∈ digits, (hexDigit? c).isSome = true) : skipPrefix digits = digits := by
  rw [skipPrefix.eq_def]
  split
  · rename_i x next rest
    have notX : ¬(x = 'x' ∨ x = 'X') := by
      rintro (rfl | rfl)
      · exact absurd (digit 'x' (by simp)) (by decide)
      · exact absurd (digit 'X' (by simp)) (by decide)
    rw [if_neg fun both => notX both.1]
  · rfl

theorem skipPrefix_of_written {text : List Char} {value : Nat} (written : WritesHex text value) :
    hexValue (skipPrefix text) = value ∧
      ∃ c rest, text = c :: rest ∧ isSpace c = false ∧ c ≠ '-' ∧ c ≠ '+' := by
  rcases written with ⟨digits, ⟨nonempty, digit, rfl⟩, form⟩
  rcases List.exists_cons_of_ne_nil nonempty with ⟨c, rest, rfl⟩
  have first := digit c (by simp)
  rcases form with rfl | rfl | rfl
  · rw [skipPrefix_of_digits digit]
    exact ⟨rfl, c, rest, rfl, not_isSpace_of_digit first⟩
  · rw [skipPrefix, if_pos ⟨Or.inl rfl, first⟩]
    exact ⟨rfl, '0', _, rfl, by decide⟩
  · rw [skipPrefix, if_pos ⟨Or.inr rfl, first⟩]
    exact ⟨rfl, '0', _, rfl, by decide⟩

theorem strtol16_of_written {text : List Char} {value : Nat} (written : WritesHex text value) :
    strtol16 text = min (value : Int) (2 ^ 63 - 1) := by
  rcases skipPrefix_of_written written with ⟨read, c, rest, rfl, noSpace, noMinus, noPlus⟩
  rw [strtol16, List.dropWhile_cons_of_neg (by simp [noSpace])]
  split
  · rename_i equal
    exact absurd (List.cons.inj equal).1 noMinus
  · rename_i equal
    exact absurd (List.cons.inj equal).1 noPlus
  · rw [read]
    omega

theorem toNat_ofInt_strtol16 {text : List Char} {value : Nat} (written : WritesHex text value) :
    (UInt64.ofInt (strtol16 text)).toNat = min value (2 ^ 63 - 1) := by
  have small : min value (2 ^ 63 - 1) < 2 ^ 64 := by omega
  have cast : min (value : Int) (2 ^ 63 - 1) = ((min value (2 ^ 63 - 1) : Nat) : Int) := by omega
  have reduced : ((min value (2 ^ 63 - 1) : Nat) : Int) % 2 ^ 64 =
      ((min value (2 ^ 63 - 1) : Nat) : Int) := Int.emod_eq_of_lt (by omega) (by omega)
  rw [strtol16_of_written written, cast, UInt64.ofInt, reduced, Int.toNat_natCast]
  exact UInt64.toNat_ofNat_of_lt' small

theorem writesHex_ofInt_strtol16_iff {text : List Char} :
    WritesHex text (UInt64.ofInt (strtol16 text)).toNat ↔ ∃ value < 2 ^ 63, WritesHex text value := by
  constructor
  · intro written
    have read := toNat_ofInt_strtol16 written
    exact ⟨_, by omega, written⟩
  · rintro ⟨value, fits, written⟩
    have read : (UInt64.ofInt (strtol16 text)).toNat = value := by
      rw [toNat_ofInt_strtol16 written]
      omega
    rwa [read]

theorem ofInt_strtol16_eq_iff {text : List Char} {value : UInt64}
    (written : WritesHex text value.toNat) :
    UInt64.ofInt (strtol16 text) = value ↔ value.toNat < 2 ^ 63 := by
  rw [← UInt64.toNat_inj, toNat_ofInt_strtol16 written]
  omega

theorem ofInt_strtol16_inj {text text' : List Char} {value value' : UInt64}
    (written : WritesHex text value.toNat) (written' : WritesHex text' value'.toNat) :
    UInt64.ofInt (strtol16 text) = UInt64.ofInt (strtol16 text') ↔
      value = value' ∨ (2 ^ 63 - 1 ≤ value.toNat ∧ 2 ^ 63 - 1 ≤ value'.toNat) := by
  rw [← UInt64.toNat_inj, toNat_ofInt_strtol16 written, toNat_ofInt_strtol16 written',
    ← UInt64.toNat_inj]
  omega

end Penglai
