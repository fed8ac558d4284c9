import Penglai.Interface
import Penglai.Gm.Sm3Absorb

namespace Penglai.SignTool

open Gm

/-! # The measurement (`hash_sec_linux` of `attest.c`)

The measurement is written over any absorber `process : σ → List UInt8 → σ`.
With `SM3_process` it computes the hash; with concatenation it yields the byte
stream the hash is fed. -/

universe u

variable {σ : Type u}

def hashGranularity : UInt64 := (1 : UInt64) <<< 20

def hashFile (process : σ → List UInt8 → σ) (memory : Memory) (hashCtx : σ)
    (currAddr leftSize : UInt64) : σ :=
  if leftSize > hashGranularity then
    hashFile process memory
      (process hashCtx (memory.read currAddr hashGranularity.toNat))
      (currAddr + hashGranularity) (leftSize - hashGranularity)
  else
    -- the cast to `int` keeps the low 32 bits
    process hashCtx (memory.read currAddr leftSize.toUInt32.toNat)
termination_by leftSize.toNat
decreasing_by
  rename_i remaining
  have larger : hashGranularity.toNat < leftSize.toNat := UInt64.lt_iff_toNat_lt.mp remaining
  rw [UInt64.toNat_sub_of_le _ _ (UInt64.le_iff_toNat_le.mpr larger.le)]
  have positive : 0 < hashGranularity.toNat := by decide
  omega

def hashSecLinuxWith (process : σ → List UInt8 → σ) (initial : σ) (memory : Memory)
    (userParam : UserParam) : σ :=
  let hashCtx := process initial (leBytes64 userParam.binLoadaddr)
  let hashCtx := hashFile process memory hashCtx userParam.binPtr userParam.binSize
  let hashCtx := process hashCtx (leBytes64 userParam.dtbLoadaddr)
  hashFile process memory hashCtx userParam.dtbPtr userParam.dtbSize

/-- `hash_sec_linux`: the value of `enclave_hash`. `staleBuf` is what the stack
held where the hash context lies. -/
def hashSecLinux (staleBuf : Bytes 64) (memory : Memory) (userParam : UserParam) : Bytes 32 :=
  sm3Done (hashSecLinuxWith sm3Process (sm3Init staleBuf) memory userParam)

/-- The bytes given to `SM3_process`, in order. -/
def measuredStream (memory : Memory) (userParam : UserParam) : List UInt8 :=
  hashSecLinuxWith (· ++ ·) [] memory userParam

/-! ## Chunks -/

/-- An absorber that does not see where one call ends and the next begins. -/
structure Streaming (process : σ → List UInt8 → σ) : Prop where
  append : ∀ state front back, process state (front ++ back) = process (process state front) back

theorem streaming_sm3Process : Streaming sm3Process := ⟨sm3Process_append⟩

theorem streaming_append : Streaming (fun stream bytes : List UInt8 => stream ++ bytes) :=
  ⟨fun stream front back => (List.append_assoc stream front back).symm⟩

theorem hashFile_eq {process : σ → List UInt8 → σ} (streaming : Streaming process)
    (memory : Memory) (hashCtx : σ) (currAddr leftSize : UInt64) :
    hashFile process memory hashCtx currAddr leftSize =
      process hashCtx (memory.read currAddr leftSize.toNat) := by
  induction hashCtx, currAddr, leftSize using hashFile.induct process memory with
  | case1 hashCtx currAddr leftSize remaining induction =>
      have larger : hashGranularity ≤ leftSize := UInt64.le_of_lt remaining
      have split : leftSize.toNat =
          hashGranularity.toNat + (leftSize - hashGranularity).toNat := by
        rw [UInt64.toNat_sub_of_le _ _ larger]
        have bound := UInt64.le_iff_toNat_le.mp larger
        omega
      have advance : UInt64.ofNat hashGranularity.toNat = hashGranularity := by decide
      rw [hashFile, if_pos remaining, induction, split, Memory.read_add, streaming.append,
        advance]
  | case2 hashCtx currAddr leftSize small =>
      have bound : leftSize.toNat ≤ 2 ^ 20 := by
        have notLess := UInt64.le_iff_toNat_le.mp (UInt64.not_lt.mp small)
        rwa [show hashGranularity.toNat = 2 ^ 20 by decide] at notLess
      have narrowed : leftSize.toUInt32.toNat = leftSize.toNat := by
        rw [UInt64.toNat_toUInt32]
        omega
      rw [hashFile, if_neg small, narrowed]

/-! ## The measured stream -/

structure Load where
  binLoadaddr : UInt64
  bin : List UInt8
  dtbLoadaddr : UInt64
  dtb : List UInt8
deriving DecidableEq

def requestedLoad (memory : Memory) (userParam : UserParam) : Load where
  binLoadaddr := userParam.binLoadaddr
  bin := memory.read userParam.binPtr userParam.binSize.toNat
  dtbLoadaddr := userParam.dtbLoadaddr
  dtb := memory.read userParam.dtbPtr userParam.dtbSize.toNat

def Load.stream (load : Load) : List UInt8 :=
  leBytes64 load.binLoadaddr ++ (load.bin ++ (leBytes64 load.dtbLoadaddr ++ load.dtb))

theorem hashSecLinuxWith_eq {process : σ → List UInt8 → σ} (streaming : Streaming process)
    (initial : σ) (memory : Memory) (userParam : UserParam) :
    hashSecLinuxWith process initial memory userParam =
      process initial (requestedLoad memory userParam).stream := by
  rw [hashSecLinuxWith, hashFile_eq streaming, hashFile_eq streaming, Load.stream,
    streaming.append, streaming.append, streaming.append]
  rfl

theorem measuredStream_eq (memory : Memory) (userParam : UserParam) :
    measuredStream memory userParam = (requestedLoad memory userParam).stream :=
  hashSecLinuxWith_eq streaming_append [] memory userParam

theorem sm3Absorbed_hashSecLinux (staleBuf : Bytes 64) (memory : Memory)
    (userParam : UserParam) :
    Sm3Absorbed (requestedLoad memory userParam).stream
      (hashSecLinuxWith sm3Process (sm3Init staleBuf) memory userParam) := by
  rw [hashSecLinuxWith_eq streaming_sm3Process]
  exact (sm3Absorbed_init staleBuf).process _

/-- The chunked measurement is the hash of the measured stream in one call,
whatever the stack held before either, and no split of a string into calls is
visible in the hash context. -/
theorem hashSecLinux_eq_oneShot :
    (∀ (memory : Memory) (userParam : UserParam),
      measuredStream memory userParam = (requestedLoad memory userParam).stream) ∧
    (∀ (staleChunked staleOneShot : Bytes 64) (memory : Memory) (userParam : UserParam),
      hashSecLinux staleChunked memory userParam =
        sm3Done (sm3Process (sm3Init staleOneShot) (requestedLoad memory userParam).stream)) ∧
    (∀ (md : Sm3State) (pieces : List (List UInt8)),
      pieces.foldl sm3Process md = sm3Process md pieces.flatten) := by
  refine ⟨measuredStream_eq, ?_, sm3Process_flatten⟩
  intro staleChunked staleOneShot memory userParam
  have oneShot := (sm3Absorbed_init staleOneShot).process (requestedLoad memory userParam).stream
  have chunked := (sm3Absorbed_hashSecLinux staleChunked memory userParam).done
  exact chunked.trans oneShot.done.symm

/-! ## What the stream determines -/

def zeroRequest (binSize dtbSize : UInt64) : UserParam where
  binPtr := 0x1000
  binSize := binSize
  binLoadaddr := 0x80200000
  dtbPtr := 0x2000
  dtbSize := dtbSize
  dtbLoadaddr := 0
  cssPtr := 0x3000
  cssSize := 160

theorem measuredStream_ambiguous :
    ¬∀ (memory memory' : Memory) (userParam userParam' : UserParam),
      0 < userParam.binSize → 0 < userParam.dtbSize →
      0 < userParam'.binSize → 0 < userParam'.dtbSize →
      measuredStream memory userParam = measuredStream memory' userParam' →
      requestedLoad memory userParam = requestedLoad memory' userParam' := by
  intro injective
  have sameStream : measuredStream (fun _ => 0) (zeroRequest 1 2) =
      measuredStream (fun _ => 0) (zeroRequest 2 1) := by
    rw [measuredStream_eq, measuredStream_eq]
    decide
  have sameLoad := injective _ _ _ _ (by decide) (by decide) (by decide) (by decide) sameStream
  exact absurd (congrArg Load.bin sameLoad) (by decide)

/-- Equal streams come from the same image address and the same total size, and
from the same load exactly if the images have one size. -/
theorem load_eq_iff_of_measuredStream_eq {memory memory' : Memory}
    {userParam userParam' : UserParam}
    (sameStream : measuredStream memory userParam = measuredStream memory' userParam') :
    userParam.binLoadaddr = userParam'.binLoadaddr ∧
    userParam.binSize.toNat + userParam.dtbSize.toNat =
      userParam'.binSize.toNat + userParam'.dtbSize.toNat ∧
    (requestedLoad memory userParam = requestedLoad memory' userParam' ↔
      userParam.binSize = userParam'.binSize) := by
  rw [measuredStream_eq, measuredStream_eq, Load.stream, Load.stream] at sameStream
  rcases List.append_inj sameStream (by simp) with ⟨sameBinAddr, sameRest⟩
  have sameTotal := congrArg List.length sameRest
  simp only [List.length_append, leBytes64_length, requestedLoad, Memory.read_length]
    at sameTotal
  refine ⟨leBytes64_injective sameBinAddr, by omega, ?_, ?_⟩
  · intro sameLoad
    have sameSize := congrArg (fun load => load.bin.length) sameLoad
    simpa [requestedLoad, UInt64.toNat_inj] using sameSize
  · intro sameSize
    rcases List.append_inj sameRest (by simp [requestedLoad, sameSize]) with ⟨sameBin, sameTail⟩
    rcases List.append_inj sameTail (by simp) with ⟨sameDtbAddr, sameDtb⟩
    rw [requestedLoad, requestedLoad, Load.mk.injEq]
    exact ⟨leBytes64_injective sameBinAddr, sameBin, leBytes64_injective sameDtbAddr, sameDtb⟩

theorem zeroRequest_load_ne :
    requestedLoad (fun _ => 0) (zeroRequest 1 2) ≠ requestedLoad (fun _ => 0) (zeroRequest 2 1) := by
  have sameStream : measuredStream (fun _ => 0) (zeroRequest 1 2) =
      measuredStream (fun _ => 0) (zeroRequest 2 1) := by
    rw [measuredStream_eq, measuredStream_eq]
    decide
  have sizes := (load_eq_iff_of_measuredStream_eq sameStream).2.2
  exact fun sameLoad => absurd (sizes.mp sameLoad) (by decide)

end Penglai.SignTool
