import Penglai.SignTool.Measure

namespace Penglai.SignTool

open Gm

/-! # The padding of the measurement

The blocks `hash_sec_linux` gives to `SM3_compress`, compared with the padding of the
standard. The hash counts bits modulo 2^32. -/

def sm3ProcessLogged (hashCtx : Sm3State × List (Bytes 64)) (bytes : List UInt8) :
    Sm3State × List (Bytes 64) :=
  (sm3Process hashCtx.1 bytes, hashCtx.2 ++ sm3ProcessBlocks hashCtx.1 bytes)

def hashSecLinuxBlocks (staleBuf : Bytes 64) (memory : Memory) (userParam : UserParam) :
    List (Bytes 64) :=
  let hashCtx := hashSecLinuxWith sm3ProcessLogged (sm3Init staleBuf, []) memory userParam
  hashCtx.2 ++ sm3DoneBlocks hashCtx.1

theorem streaming_sm3ProcessLogged : Streaming sm3ProcessLogged where
  append state front back := by
    rw [sm3ProcessLogged, sm3ProcessLogged, sm3ProcessLogged, sm3Process_append,
      sm3ProcessBlocks_append, List.append_assoc]

theorem hashSecLinuxWith_logged (staleBuf : Bytes 64) (memory : Memory) (userParam : UserParam) :
    hashSecLinuxWith sm3ProcessLogged (sm3Init staleBuf, []) memory userParam =
      (sm3Process (sm3Init staleBuf) (measuredStream memory userParam),
        sm3ProcessBlocks (sm3Init staleBuf) (measuredStream memory userParam)) := by
  rw [hashSecLinuxWith_eq streaming_sm3ProcessLogged, measuredStream_eq]
  simp only [sm3ProcessLogged, List.nil_append]

theorem hashSecLinux_eq_compressBlocks (staleBuf : Bytes 64) (memory : Memory)
    (userParam : UserParam) :
    hashSecLinux staleBuf memory userParam =
      sm3Digest (compressBlocks (hashSecLinuxBlocks staleBuf memory userParam) sm3Iv) := by
  rw [hashSecLinux, hashSecLinuxWith_eq streaming_sm3Process, ← measuredStream_eq,
    sm3Done_eq_compressBlocks, sm3Process_state, hashSecLinuxBlocks, hashSecLinuxWith_logged,
    compressBlocks_append]
  rfl

theorem flatMap_hashSecLinuxBlocks (staleBuf : Bytes 64) (memory : Memory)
    (userParam : UserParam) :
    ((hashSecLinuxBlocks staleBuf memory userParam).flatMap fun block => block.toList) =
      measuredStream memory userParam ++
        sm3Padding (measuredStream memory userParam).length := by
  rcases (sm3Absorbed_init staleBuf).processed (measuredStream memory userParam) with
    ⟨absorbed, blocks⟩
  rw [List.nil_append] at absorbed blocks
  have none : wholeBlocks 64 ([] : List UInt8) = [] := rfl
  rw [none, List.nil_append] at blocks
  rw [hashSecLinuxBlocks, hashSecLinuxWith_logged, ← blocks, absorbed.doneBlocks]
  apply flatMap_wholeBlocks
  simp only [sm3Padding, List.length_append, List.length_cons, List.length_replicate,
    beBytes_length]
  omega

/-! ## The standard -/

/-- The padding of GM/T 0004: the marker, the least number of zeros, and the number of
bits in eight bytes, most significant first. -/
def StandardPadded (message padded : List UInt8) : Prop :=
  ∃ (zeros : Nat) (bitLength : List UInt8),
    padded = message ++ (0x80 :: List.replicate zeros 0 ++ bitLength) ∧
    bitLength.length = 8 ∧ beNat bitLength = 8 * message.length ∧
    padded.length % 64 = 0 ∧
    ∀ fewer < zeros, (message.length + 1 + fewer + 8) % 64 ≠ 0

theorem beNat_lowHalf (length : Nat) :
    beNat (List.replicate 4 0 ++ beBytes 4 (length % 2 ^ 32)) = length % 2 ^ 32 := by
  have bound : length % 2 ^ 32 < 256 ^ 4 := Nat.mod_lt _ (by decide)
  have high : beNat (List.replicate 4 0) = 0 := by decide
  rw [beNat_append, beNat_beBytes bound, high, Nat.zero_mul, Nat.zero_add]

theorem standardPadded_iff (message : List UInt8) :
    StandardPadded message (message ++ sm3Padding message.length) ↔
      8 * message.length < 2 ^ 32 := by
  constructor
  · rintro ⟨zeros, bitLength, same, eight, value, -⟩
    have tails : sm3Padding message.length =
        0x80 :: List.replicate zeros 0 ++ bitLength := List.append_cancel_left same
    rw [sm3Padding] at tails
    have written := (List.append_inj' tails (by simp [eight])).2
    rw [← written, beNat_lowHalf] at value
    have bound : 8 * message.length % 2 ^ 32 < 2 ^ 32 := Nat.mod_lt _ (by decide)
    rwa [value] at bound
  · intro small
    refine ⟨(119 - message.length % 64) % 64, _, rfl, ?_, ?_, ?_, ?_⟩
    · simp
    · rw [beNat_lowHalf, Nat.mod_eq_of_lt small]
    · simp only [sm3Padding, List.length_append, List.length_cons, List.length_replicate,
        beBytes_length]
      omega
    · intro fewer less
      omega

theorem measuredStream_length (memory : Memory) (userParam : UserParam) :
    (measuredStream memory userParam).length =
      16 + userParam.binSize.toNat + userParam.dtbSize.toNat := by
  rw [measuredStream_eq]
  simp only [Load.stream, requestedLoad, List.length_append, leBytes64_length,
    Memory.read_length]
  omega

/-- `hash_sec_linux` pads as the standard does exactly if the measured stream has fewer
than 2^29 bytes. -/
theorem hashSecLinuxBlocks_standard_iff (staleBuf : Bytes 64) (memory : Memory)
    (userParam : UserParam) :
    StandardPadded (measuredStream memory userParam)
        ((hashSecLinuxBlocks staleBuf memory userParam).flatMap fun block => block.toList) ↔
      16 + userParam.binSize.toNat + userParam.dtbSize.toNat < 2 ^ 29 := by
  rw [flatMap_hashSecLinuxBlocks, standardPadded_iff, measuredStream_length]
  omega

theorem hashSecLinuxBlocks_half_gibibyte :
    ¬StandardPadded (measuredStream (fun _ => 0) (zeroRequest 0x20000000 160))
      ((hashSecLinuxBlocks (Vector.replicate 64 0) (fun _ => 0)
        (zeroRequest 0x20000000 160)).flatMap fun block => block.toList) := by
  rw [flatMap_hashSecLinuxBlocks, standardPadded_iff, measuredStream_length]
  decide

end Penglai.SignTool
