import Mathlib.Tactic

namespace Penglai

/-! # Byte strings as numbers

Big-endian byte strings stand for naturals: the head is the most significant
byte. Fixed-width strings are `Vector UInt8 width`, so that a buffer of the
wrong size cannot be built. -/

abbrev Bytes (width : Nat) := Vector UInt8 width

/-! ## Big-endian numbers -/

def beNat (bytes : List UInt8) : Nat :=
  bytes.foldl (fun value byte => value * 256 + byte.toNat) 0

def beBytes : (width value : Nat) → List UInt8
  | 0, _ => []
  | width + 1, value => beBytes width (value / 256) ++ [UInt8.ofNat value]

@[simp] theorem beNat_nil : beNat [] = 0 := rfl

@[simp] theorem beNat_concat (bytes : List UInt8) (byte : UInt8) :
    beNat (bytes ++ [byte]) = beNat bytes * 256 + byte.toNat := by
  simp [beNat]

theorem beNat_append (front back : List UInt8) :
    beNat (front ++ back) = beNat front * 256 ^ back.length + beNat back := by
  induction back using List.reverseRecOn with
  | nil => simp
  | append_singleton back byte induction =>
      rw [← List.append_assoc, beNat_concat, beNat_concat, induction, List.length_append,
        List.length_singleton, pow_succ]
      ring

theorem beNat_cons (byte : UInt8) (bytes : List UInt8) :
    beNat (byte :: bytes) = byte.toNat * 256 ^ bytes.length + beNat bytes := by
  have single : beNat [byte] = byte.toNat := by simp [beNat]
  rw [← List.singleton_append, beNat_append, single]

theorem beNat_lt (bytes : List UInt8) : beNat bytes < 256 ^ bytes.length := by
  induction bytes using List.reverseRecOn with
  | nil => simp
  | append_singleton bytes byte induction =>
      have byteBound : byte.toNat < 256 := byte.toNat_lt
      rw [beNat_concat, List.length_append, List.length_singleton, pow_succ]
      omega

@[simp] theorem beBytes_length : ∀ width value : Nat, (beBytes width value).length = width
  | 0, _ => rfl
  | width + 1, value => by simp [beBytes, beBytes_length width]

theorem beNat_beBytes : ∀ {width value : Nat}, value < 256 ^ width →
    beNat (beBytes width value) = value
  | 0, value, bound => by
      have valueZero : value = 0 := by simpa using bound
      simp [beBytes, valueZero]
  | width + 1, value, bound => by
      have quotientBound : value / 256 < 256 ^ width := by
        rw [pow_succ] at bound
        omega
      rw [beBytes, beNat_concat, beNat_beBytes quotientBound, UInt8.toNat_ofNat']
      omega

theorem beBytes_beNat (bytes : List UInt8) : beBytes bytes.length (beNat bytes) = bytes := by
  induction bytes using List.reverseRecOn with
  | nil => rfl
  | append_singleton bytes byte induction =>
      have byteBound : byte.toNat < 256 := byte.toNat_lt
      have quotient : (beNat bytes * 256 + byte.toNat) / 256 = beNat bytes := by omega
      have lowByte : UInt8.ofNat (beNat bytes * 256 + byte.toNat) = byte := by
        apply UInt8.toNat_inj.mp
        rw [UInt8.toNat_ofNat']
        omega
      rw [List.length_append, List.length_singleton, beNat_concat, beBytes, quotient,
        induction, lowByte]

theorem beBytes_add (high low value : Nat) :
    beBytes (high + low) value = beBytes high (value / 256 ^ low) ++ beBytes low value := by
  induction low generalizing value with
  | zero => simp [beBytes]
  | succ low induction =>
      rw [← Nat.add_assoc, beBytes, induction, Nat.div_div_eq_div_mul, Nat.mul_comm, ← pow_succ,
        List.append_assoc]
      rfl

theorem beBytes_mod (width value : Nat) : beBytes width (value % 256 ^ width) = beBytes width value := by
  induction width generalizing value with
  | zero => rfl
  | succ width induction =>
      have low : UInt8.ofNat (value % 256 ^ (width + 1)) = UInt8.ofNat value := by
        apply UInt8.toNat_inj.mp
        rw [UInt8.toNat_ofNat', UInt8.toNat_ofNat']
        exact Nat.mod_mod_of_dvd value (Dvd.intro_left (256 ^ width) rfl)
      rw [beBytes, beBytes, low, pow_succ, Nat.mul_comm, Nat.mod_mul_right_div_self, induction]

@[simp] theorem beBytes_zero (width : Nat) : beBytes width 0 = List.replicate width 0 := by
  induction width with
  | zero => rfl
  | succ width induction =>
      rw [beBytes, Nat.zero_div, induction, List.replicate_succ']
      rfl

theorem beNat_injective {left right : List UInt8} (sameLength : left.length = right.length)
    (equal : beNat left = beNat right) : left = right := by
  rw [← beBytes_beNat left, ← beBytes_beNat right, sameLength, equal]

/-- Bit `position` of the number is bit `position % 8` of the byte that stands
`position / 8` places from the end; past the front every bit is zero. -/
theorem testBit_beNat (bytes : List UInt8) (position : Nat) :
    (beNat bytes).testBit position =
      (bytes.reverse.getD (position / 8) 0).toNat.testBit (position % 8) := by
  induction bytes using List.reverseRecOn generalizing position with
  | nil => simp
  | append_singleton bytes byte induction =>
      have byteBound : byte.toNat < 2 ^ 8 := byte.toNat_lt
      have split : beNat bytes * 256 + byte.toNat = 2 ^ 8 * beNat bytes + byte.toNat := by
        ring
      rw [beNat_concat, split, Nat.testBit_two_pow_mul_add _ byteBound,
        List.reverse_append, List.reverse_singleton, List.singleton_append]
      by_cases low : position < 8
      · have quotient : position / 8 = 0 := Nat.div_eq_of_lt low
        rw [if_pos low, quotient, Nat.mod_eq_of_lt low]
        rfl
      · have quotient : position / 8 = (position - 8) / 8 + 1 := by omega
        have remainder : position % 8 = (position - 8) % 8 := by omega
        rw [if_neg low, induction, quotient, remainder]
        rfl

/-! ## Fixed-width strings -/

def Bytes.toNat {width : Nat} (bytes : Bytes width) : Nat := beNat bytes.toList

def Bytes.ofNat (width value : Nat) : Bytes width :=
  ⟨(beBytes width value).toArray, by simp⟩

theorem Bytes.toNat_lt {width : Nat} (bytes : Bytes width) : bytes.toNat < 256 ^ width := by
  have bound := beNat_lt bytes.toList
  rwa [Vector.length_toList] at bound

theorem Bytes.toNat_ofNat {width value : Nat} (bound : value < 256 ^ width) :
    (Bytes.ofNat width value).toNat = value :=
  beNat_beBytes bound

theorem Bytes.toNat_injective {width : Nat} {left right : Bytes width}
    (equal : left.toNat = right.toNat) : left = right := by
  apply Vector.toList_inj.mp
  exact beNat_injective (by simp) equal

@[simp] theorem Bytes.ofNat_toNat {width : Nat} (bytes : Bytes width) :
    Bytes.ofNat width bytes.toNat = bytes :=
  Bytes.toNat_injective (Bytes.toNat_ofNat bytes.toNat_lt)

theorem Bytes.testBit_toNat {width : Nat} (bytes : Bytes width) {position : Nat}
    (inside : position < 8 * width) :
    bytes.toNat.testBit position =
      bytes[width - 1 - position / 8].toNat.testBit (position % 8) := by
  have place : position / 8 < width := by omega
  rw [Bytes.toNat, testBit_beNat]
  simp [place]

/-! ## 32-bit words -/

def beWord (b0 b1 b2 b3 : UInt8) : UInt32 :=
  (b0.toUInt32 <<< 24) ||| (b1.toUInt32 <<< 16) ||| (b2.toUInt32 <<< 8) ||| b3.toUInt32

theorem toNat_beWord (b0 b1 b2 b3 : UInt8) :
    (beWord b0 b1 b2 b3).toNat = beNat [b0, b1, b2, b3] := by
  have concat : ∀ (high : Nat) (low : UInt8),
      high * 256 + low.toNat = high <<< 8 ||| low.toNat := by
    intro high low
    rw [← Nat.shiftLeft_add_eq_or_of_lt low.toNat_lt, Nat.shiftLeft_eq]
  have place : ∀ (byte : UInt8) (count : UInt32), count.toNat ≤ 24 →
      (byte.toUInt32 <<< count).toNat = byte.toNat <<< count.toNat := by
    intro byte count bound
    have fits : byte.toNat * 2 ^ count.toNat < 2 ^ 32 := by
      calc byte.toNat * 2 ^ count.toNat
          < 2 ^ 8 * 2 ^ count.toNat := Nat.mul_lt_mul_of_pos_right byte.toNat_lt (by positivity)
        _ ≤ 2 ^ 8 * 2 ^ 24 := Nat.mul_le_mul_left _ (Nat.pow_le_pow_right (by decide) bound)
        _ = 2 ^ 32 := by norm_num
    rw [UInt32.toNat_shiftLeft, Nat.mod_eq_of_lt (show count.toNat < 32 by omega),
      UInt8.toNat_toUInt32, Nat.shiftLeft_eq, Nat.mod_eq_of_lt fits]
  have value : beNat [b0, b1, b2, b3] =
      ((b0.toNat * 256 + b1.toNat) * 256 + b2.toNat) * 256 + b3.toNat := by
    simp [beNat]
  rw [value, concat, concat, concat, beWord, UInt32.toNat_or, UInt32.toNat_or,
    UInt32.toNat_or, place b0 24 (by decide), place b1 16 (by decide), place b2 8 (by decide)]
  simp [Nat.shiftLeft_or_distrib, ← Nat.shiftLeft_add]

def lowByte (word : UInt32) : UInt8 := (word &&& 0xFF).toUInt8

theorem beBytes_word (word : UInt32) :
    beBytes 4 word.toNat =
      [lowByte (word >>> 24), lowByte (word >>> 16), lowByte (word >>> 8), lowByte word] := by
  have mask : ∀ value : UInt32, lowByte value = UInt8.ofNat value.toNat := by
    intro value
    apply UInt8.toNat_inj.mp
    have low : value.toNat % 256 &&& 255 = value.toNat % 256 % 256 :=
      Nat.and_two_pow_sub_one_eq_mod _ 8
    simp [lowByte, low]
  have shifted : ∀ count : UInt32, count.toNat < 32 →
      (word >>> count).toNat = word.toNat / 2 ^ count.toNat := by
    intro count bound
    rw [UInt32.toNat_shiftRight, Nat.mod_eq_of_lt bound, Nat.shiftRight_eq_div_pow]
  rw [mask, mask, mask, mask, shifted 24 (by decide), shifted 16 (by decide),
    shifted 8 (by decide)]
  simp [beBytes, Nat.div_div_eq_div_mul]

@[simp] theorem beWord_lowBytes (word : UInt32) :
    beWord (lowByte (word >>> 24)) (lowByte (word >>> 16)) (lowByte (word >>> 8))
      (lowByte word) = word := by
  apply UInt32.toNat_inj.mp
  rw [toNat_beWord, ← beBytes_word, beNat_beBytes word.toNat_lt]

private theorem lowBytes_beWord (b0 b1 b2 b3 : UInt8) :
    lowByte (beWord b0 b1 b2 b3 >>> 24) = b0 ∧ lowByte (beWord b0 b1 b2 b3 >>> 16) = b1 ∧
      lowByte (beWord b0 b1 b2 b3 >>> 8) = b2 ∧ lowByte (beWord b0 b1 b2 b3) = b3 := by
  have decoded := beBytes_word (beWord b0 b1 b2 b3)
  rw [toNat_beWord, show (4 : Nat) = [b0, b1, b2, b3].length by rfl, beBytes_beNat] at decoded
  simpa [eq_comm] using decoded

@[simp] theorem lowByte_beWord_24 (b0 b1 b2 b3 : UInt8) :
    lowByte (beWord b0 b1 b2 b3 >>> 24) = b0 := (lowBytes_beWord b0 b1 b2 b3).1

@[simp] theorem lowByte_beWord_16 (b0 b1 b2 b3 : UInt8) :
    lowByte (beWord b0 b1 b2 b3 >>> 16) = b1 := (lowBytes_beWord b0 b1 b2 b3).2.1

@[simp] theorem lowByte_beWord_8 (b0 b1 b2 b3 : UInt8) :
    lowByte (beWord b0 b1 b2 b3 >>> 8) = b2 := (lowBytes_beWord b0 b1 b2 b3).2.2.1

@[simp] theorem lowByte_beWord (b0 b1 b2 b3 : UInt8) :
    lowByte (beWord b0 b1 b2 b3) = b3 := (lowBytes_beWord b0 b1 b2 b3).2.2.2

/-! ## Little-endian storage -/

/-- The bytes of a 64-bit integer as a little-endian machine stores it. -/
def leBytes64 (value : UInt64) : List UInt8 := (beBytes 8 value.toNat).reverse

@[simp] theorem leBytes64_length (value : UInt64) : (leBytes64 value).length = 8 := by
  simp [leBytes64]

theorem leBytes64_injective {left right : UInt64}
    (equal : leBytes64 left = leBytes64 right) : left = right := by
  apply UInt64.toNat_inj.mp
  have bytesEqual : beBytes 8 left.toNat = beBytes 8 right.toNat :=
    List.reverse_inj.mp equal
  have decode : ∀ value : UInt64, beNat (beBytes 8 value.toNat) = value.toNat :=
    fun value => beNat_beBytes value.toNat_lt
  rw [← decode left, ← decode right, bytesEqual]

end Penglai
