import Penglai.SignTool.Main

namespace Penglai.SignTool

open Gm

/-! # What `load_secure_linux` leaves in `enclave_hash`

Its status is always zero, so what the caller sees is a hash: of the two files, of
whatever a stale record points to, or the bytes that lay there before. -/

def SignEnv.enclaveFile (env : SignEnv) : ElfArgs := elfArgsInit env.staleEnclaveFile env.image

def SignEnv.dtbFile (env : SignEnv) : ElfArgs := elfArgsInit env.staleDtbFile env.dtb

/-- Loading kills the process: it hashes memory that cannot be read, or gives away
memory in use. The device tree is opened only behind a valid image. -/
def LoadKills (env : SignEnv) : Prop :=
  (elfValid env.enclaveFile ∧ elfValid env.dtbFile ∧
    ¬(env.space.Readable env.enclaveFile.ptr env.enclaveFile.size ∧
      env.space.Readable env.dtbFile.ptr env.dtbFile.size)) ∨
  env.unmapKills env.enclaveFile = true ∨
  (elfValid env.enclaveFile ∧ env.unmapKills env.dtbFile = true)

instance (env : SignEnv) : Decidable (LoadKills env) := inferInstanceAs (Decidable (_ ∨ _))

def hashAfterLoad (env : SignEnv) : Bytes 32 :=
  if elfValid env.enclaveFile ∧ elfValid env.dtbFile then
    hashSecLinux env.staleHashBuf env.space.bytes env.userParam
  else env.staleCss.enclaveHash

theorem loadSecureLinux_eq (env : SignEnv) :
    loadSecureLinux env = if LoadKills env then none else some (hashAfterLoad env) := by
  have image : elfArgsInit env.staleEnclaveFile env.image = env.enclaveFile := rfl
  have dtb : elfArgsInit env.staleDtbFile env.dtb = env.dtbFile := rfl
  simp only [loadSecureLinux, LoadKills, hashAfterLoad, hashMapped, SignEnv.userParam,
    elfArgsDestroy, image, dtb]
  by_cases imageValid : elfValid env.enclaveFile
  · by_cases dtbValid : elfValid env.dtbFile
    · by_cases readable : env.space.Readable env.enclaveFile.ptr env.enclaveFile.size ∧
          env.space.Readable env.dtbFile.ptr env.dtbFile.size
      · cases imageKills : env.unmapKills env.enclaveFile <;>
          cases dtbKills : env.unmapKills env.dtbFile <;>
          simp [imageValid, dtbValid, readable]
      · simp [imageValid, dtbValid, readable]
    · cases imageKills : env.unmapKills env.enclaveFile <;>
        cases dtbKills : env.unmapKills env.dtbFile <;>
        simp [imageValid, dtbValid]
  · cases imageKills : env.unmapKills env.enclaveFile <;> simp [imageValid]

theorem loadSecureLinux_eq_none_iff (env : SignEnv) :
    loadSecureLinux env = none ↔ LoadKills env := by
  simp [loadSecureLinux_eq]

theorem loadSecureLinux_eq_some_iff (env : SignEnv) (enclaveHash : Bytes 32) :
    loadSecureLinux env = some enclaveHash ↔ ¬LoadKills env ∧ hashAfterLoad env = enclaveHash := by
  simp [loadSecureLinux_eq]

/-! ## Two mapped files -/

/-- Both files lie in memory; then this is what is measured. -/
def SignEnv.measuredLoad? (env : SignEnv) : Option Load :=
  match env.image, env.dtb with
  | .mapped _ image, .mapped _ dtb =>
      some
        { binLoadaddr := env.path.binLoadaddr
          bin := image.contents
          dtbLoadaddr := env.path.dtbLoadaddr
          dtb := dtb.contents }
  | _, _ => none

def Load.measurement (load : Load) : Bytes 32 := sm3Hash load.stream

theorem hashSecLinux_eq_measurement (staleBuf : Bytes 64) (memory : Memory)
    (userParam : UserParam) :
    hashSecLinux staleBuf memory userParam = (requestedLoad memory userParam).measurement := by
  have oneCall := (sm3Absorbed_init (Vector.replicate 64 0)).process
    (requestedLoad memory userParam).stream
  rw [Load.measurement, sm3Hash, sm3_256, hashSecLinux,
    (sm3Absorbed_hashSecLinux staleBuf memory userParam).done, oneCall.done, List.nil_append]

theorem hashAfterLoad_of_mapped {env : SignEnv} {load : Load}
    (measured : env.measuredLoad? = some load) : hashAfterLoad env = load.measurement := by
  rw [SignEnv.measuredLoad?] at measured
  cases image : env.image with
  | mapped imageFd imageFile =>
      cases dtb : env.dtb with
      | mapped dtbFd dtbFile =>
          simp only [image, dtb, Option.some.injEq] at measured
          have imageValid : elfValid env.enclaveFile := by
            rw [SignEnv.enclaveFile, elfValid_elfArgsInit, image]
            trivial
          have dtbValid : elfValid env.dtbFile := by
            rw [SignEnv.dtbFile, elfValid_elfArgsInit, dtb]
            trivial
          have requested : requestedLoad env.space.bytes env.userParam = load := by
            rw [← measured, requestedLoad, SignEnv.userParam, image, dtb]
            simp only [elfArgsInit, imageFile.size_toNat, dtbFile.size_toNat, imageFile.holds,
              dtbFile.holds]
          rw [hashAfterLoad, if_pos ⟨imageValid, dtbValid⟩, hashSecLinux_eq_measurement,
            requested]
      | _ => simp [image, dtb] at measured
  | _ => simp [image] at measured

theorem not_loadKills_of_mapped {env : SignEnv} {load : Load}
    (measured : env.measuredLoad? = some load) (keeps : ∀ record, env.unmapKills record = false) :
    ¬LoadKills env := by
  rw [SignEnv.measuredLoad?] at measured
  cases image : env.image with
  | mapped imageFd imageFile =>
      cases dtb : env.dtb with
      | mapped dtbFd dtbFile =>
          have imageRecord : env.enclaveFile =
              ⟨imageFd, UInt64.ofNat imageFile.contents.length, imageFile.ptr⟩ := by
            rw [SignEnv.enclaveFile, image, elfArgsInit]
          have dtbRecord : env.dtbFile =
              ⟨dtbFd, UInt64.ofNat dtbFile.contents.length, dtbFile.ptr⟩ := by
            rw [SignEnv.dtbFile, dtb, elfArgsInit]
          rintro (⟨_, _, unreadable⟩ | kills | ⟨_, kills⟩)
          · rw [imageRecord, dtbRecord] at unreadable
            exact unreadable ⟨imageFile.readable, dtbFile.readable⟩
          · rw [keeps] at kills
            cases kills
          · rw [keeps] at kills
            cases kills
      | _ => simp [image, dtb] at measured
  | _ => simp [image] at measured

end Penglai.SignTool
