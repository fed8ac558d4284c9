import Penglai.Driver.Ioctl

namespace Penglai.Driver

/-! # What an attestation shows

The report is allocated without being cleared, and it is copied out whatever the
monitor answered. -/

def IoctlEnv.withStale (env : IoctlEnv) (staleData : Bytes 1024)
    (staleReport : Bytes reportLength) : IoctlEnv :=
  { env with staleData := staleData, staleReport := staleReport }

/-- Old kernel memory has no part in what an attestation stores in user memory. -/
def Tight (env : IoctlEnv) (args : UInt64) : Prop :=
  ∀ staleData staleReport,
    (penglaiEnclaveIoctl (env.withStale staleData staleReport) iocAttestLinux args).storedBack =
      (penglaiEnclaveIoctl env iocAttestLinux args).storedBack

theorem storedBack_attest (env : IoctlEnv) (args : UInt64)
    (complete : min env.copyIn (8 + reportLength) = 0) :
    (penglaiEnclaveIoctl env iocAttestLinux args).storedBack =
      (env.user.read args 8 ++ (env.filled.getD env.staleReport).toList).take
        (8 + reportLength - env.copyBack) := by
  have whole : 8 + reportLength - env.copyBack ≤
      (env.user.read args 8 ++ (env.filled.getD env.staleReport).toList).length := by
    simp
  rw [penglaiEnclaveIoctl_attest args complete]
  exact List.take_append_of_le_length whole

def otherReport (report : Bytes reportLength) : Bytes reportLength :=
  Vector.replicate reportLength (report.toList.headD 0 + 1)

theorem headD_otherReport (report : Bytes reportLength) :
    (otherReport report).toList.headD 0 ≠ report.toList.headD 0 := by
  have first : (otherReport report).toList.headD 0 = report.toList.headD 0 + 1 := by
    rw [otherReport, Vector.toList_replicate]
    rfl
  rw [first]
  intro same
  have offset : report.toList.headD 0 + 1 = report.toList.headD 0 + 0 := by
    rw [same, UInt8.add_zero]
  exact absurd ((UInt8.add_right_inj _).mp offset) (by decide)

theorem headD_eq_of_take_eq {front left right : List UInt8} {stored : Nat}
    (beyond : front.length < stored)
    (same : (front ++ left).take stored = (front ++ right).take stored) :
    left.headD 0 = right.headD 0 := by
  have cell := congrArg (fun bytes => bytes.getD front.length 0) same
  simp only [List.getD_eq_getElem?_getD, List.getElem?_take_of_lt beyond,
    List.getElem?_append_right (Nat.le_refl _), Nat.sub_self] at cell
  rw [List.headD_eq_head?_getD, List.headD_eq_head?_getD, List.head?_eq_getElem?,
    List.head?_eq_getElem?]
  exact cell

theorem tight_of_filled {env : IoctlEnv} (args : UInt64)
    (complete : min env.copyIn (8 + reportLength) = 0) (filled : env.filled.isSome) :
    Tight env args := by
  rcases Option.isSome_iff_exists.mp filled with ⟨report, present⟩
  intro staleData staleReport
  rw [storedBack_attest env args complete,
    storedBack_attest (env.withStale staleData staleReport) args complete]
  simp only [IoctlEnv.withStale, present, Option.getD_some]

theorem tight_iff_of_untouched {env : IoctlEnv} (args : UInt64)
    (complete : min env.copyIn (8 + reportLength) = 0) (untouched : env.filled = none) :
    Tight env args ↔ reportLength ≤ env.copyBack := by
  have stored : ∀ staleData staleReport,
      (penglaiEnclaveIoctl (env.withStale staleData staleReport) iocAttestLinux args).storedBack =
        (env.user.read args 8 ++ staleReport.toList).take (8 + reportLength - env.copyBack) := by
    intro staleData staleReport
    have copied := storedBack_attest (env.withStale staleData staleReport) args complete
    simp only [IoctlEnv.withStale, untouched, Option.getD_none] at copied ⊢
    exact copied
  have own := stored env.staleData env.staleReport
  constructor
  · intro tight
    by_contra more
    have same := tight env.staleData (otherReport env.staleReport)
    rw [stored] at same
    have beyond : (env.user.read args 8).length < 8 + reportLength - env.copyBack := by
      rw [Memory.read_length]
      omega
    exact headD_otherReport env.staleReport (headD_eq_of_take_eq beyond (same.trans own))
  · intro few staleData staleReport
    have short : 8 + reportLength - env.copyBack ≤ (env.user.read args 8).length := by
      rw [Memory.read_length]
      omega
    rw [stored]
    refine Eq.trans ?_ own.symm
    rw [List.take_append_of_le_length short, List.take_append_of_le_length short]

/-- An attestation shows no old kernel memory exactly if the monitor fills the report,
the request cannot be read, or the last copy stops within the nonce. -/
theorem tight_iff (env : IoctlEnv) (args : UInt64) :
    Tight env args ↔
      env.filled.isSome ∨ min env.copyIn (8 + reportLength) ≠ 0 ∨
        reportLength ≤ env.copyBack := by
  by_cases complete : min env.copyIn (8 + reportLength) = 0
  · cases filled : env.filled with
    | some report =>
        have tight := tight_of_filled args complete (by rw [filled]; rfl)
        simp [tight]
    | none => simpa [complete] using tight_iff_of_untouched args complete filled
  · have refused : ∀ env' : IoctlEnv, env'.copyIn = env.copyIn →
        penglaiEnclaveIoctl env' iocAttestLinux args = ⟨efault, [], []⟩ := by
      intro env' same
      exact penglaiEnclaveIoctl_of_incomplete args (by decide)
        (by rwa [iocSize_attestLinux, same])
    have tight : Tight env args := by
      intro staleData staleReport
      rw [refused env rfl, refused (env.withStale staleData staleReport) rfl]
    simp [tight, complete]

/-- A TEE that has not finished booting: the monitor answers -2 and leaves the report
alone. -/
def notBooted : IoctlEnv where
  staleData := Vector.replicate 1024 0
  staleReport := Vector.replicate reportLength 0
  user := fun _ => 0
  copyIn := 0
  copyBack := 0
  answers := { load := ⟨0, 0⟩, bin := 0, dtb := 0, css := 0, run := ⟨0, 0⟩ }
  attest := ⟨0, -2⟩
  filled := none

theorem notBooted_not_tight : ¬Tight notBooted 0x1000 := by
  rw [tight_iff_of_untouched 0x1000 (by decide) rfl]
  decide

end Penglai.Driver
