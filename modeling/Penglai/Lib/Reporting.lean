import Penglai.Lib.Enclave

namespace Penglai.Lib

open Driver

/-! # What the library reports

The status of a monitor call passes four conventions: the pair of the monitor, the
truncated value in the driver, the sign test of the system call and the sign test of
the library. The error of the pair reaches none of them. -/

def succeeded : SbiRet := ⟨0, 0⟩

def LoadAndRunCall.request (call : LoadAndRunCall) : Option UserParam :=
  match call.uBinFile, call.uDtbFile, call.uCssFile with
  | some uBinFile, some uDtbFile, some uCssFile =>
      if fileMissing uBinFile ∨ fileMissing uDtbFile ∨ fileMissing uCssFile then none
      else
        some
          { binPtr := uBinFile.ptr
            binSize := uBinFile.size
            binLoadaddr := call.binLoadaddr
            dtbPtr := uDtbFile.ptr
            dtbSize := uDtbFile.size
            dtbLoadaddr := call.dtbLoadaddr
            cssPtr := uCssFile.ptr
            cssSize := uCssFile.size }
  | _, _, _ => none

theorem LoadAndRunCall.request_loadaddr (call : LoadAndRunCall) {userParam : UserParam}
    (present : call.request = some userParam) :
    userParam.binLoadaddr = call.binLoadaddr ∧ userParam.dtbLoadaddr = call.dtbLoadaddr := by
  rw [LoadAndRunCall.request] at present
  split at present
  · split at present
    · cases present
    · cases present
      exact ⟨rfl, rfl⟩
  · cases present

theorem plenclaveLoadAndRun_of_no_request {call : LoadAndRunCall} (absent : call.request = none)
    {ret : Int32} {events : List Event} (returned : plenclaveLoadAndRun call = some (ret, events)) :
    ret = -1 ∧ events = [] := by
  rcases call with ⟨fd, userParamAddr, uBinFile, binLoadaddr, uDtbFile, dtbLoadaddr, uCssFile, env⟩
  cases uBinFile with
  | none => simp_all [plenclaveLoadAndRun]
  | some uBinFile =>
      by_cases noBin : fileMissing uBinFile
      · simp_all [plenclaveLoadAndRun]
      · cases uDtbFile with
        | none => simp_all [plenclaveLoadAndRun]
        | some uDtbFile =>
            by_cases noDtb : fileMissing uDtbFile
            · simp_all [plenclaveLoadAndRun]
            · cases uCssFile with
              | none => simp_all [plenclaveLoadAndRun]
              | some uCssFile =>
                  by_cases noCss : fileMissing uCssFile
                  · simp_all [plenclaveLoadAndRun]
                  · simp [LoadAndRunCall.request, noBin, noDtb, noCss] at absent

theorem plenclaveLoadAndRun_of_request {call : LoadAndRunCall} {userParam : UserParam}
    (present : call.request = some userParam) :
    plenclaveLoadAndRun call =
      some (if (ioctl call.fd (call.envWith userParam) iocLoadAndRunLinux
          call.userParamAddr).1 < 0 then -1 else 0,
        (ioctl call.fd (call.envWith userParam) iocLoadAndRunLinux call.userParamAddr).2) := by
  rcases call with ⟨fd, userParamAddr, uBinFile, binLoadaddr, uDtbFile, dtbLoadaddr, uCssFile, env⟩
  cases uBinFile with
  | none => simp [LoadAndRunCall.request] at present
  | some uBinFile =>
      cases uDtbFile with
      | none => simp [LoadAndRunCall.request] at present
      | some uDtbFile =>
          cases uCssFile with
          | none => simp [LoadAndRunCall.request] at present
          | some uCssFile =>
              simp only [LoadAndRunCall.request, Option.ite_none_left_eq_some, not_or,
                Option.some.injEq] at present
              rcases present with ⟨⟨bin, dtb, css⟩, rfl⟩
              simp only [plenclaveLoadAndRun, if_neg bin, if_neg dtb, if_neg css]

/-! ## Load and run -/

/-- The call never reports a failed monitor call as a success, and nothing is placed or
run behind a load call that failed. -/
def LoadAndRunCall.Reported (call : LoadAndRunCall) : Prop :=
  ∀ ret events, plenclaveLoadAndRun call = some (ret, events) →
    (ret = 0 → call.env.answers.load = succeeded ∧ call.env.answers.run = succeeded ∧
      ∃ stores teeSbiParam, events = .sbiLoad :: stores ++ [.sbiRun teeSbiParam]) ∧
    (call.env.answers.load.error ≠ 0 → ∀ event ∈ events, event = .sbiLoad)

/-- The answers to a request that has reached the driver are told apart by the sign of
the truncated values. -/
def LoadAndRunCall.Distinguished (call : LoadAndRunCall) (userParam : UserParam) : Prop :=
  call.env.answers.load.value.toInt32 < 0 ∨
  0 < call.env.answers.load.value.toInt32 ∧ min call.env.copyBack 64 ≠ 0 ∨
  call.env.answers.load.value.toInt32 = 0 ∧ call.env.answers.load.error = 0 ∧
    (¬Placed call.env.answers userParam ∨ call.env.answers.run.value.toInt32 < 0 ∨
      min call.env.copyBack 64 ≠ 0 ∨
      call.env.answers.load.value = 0 ∧ call.env.answers.run = succeeded)

instance (call : LoadAndRunCall) (userParam : UserParam) :
    Decidable (call.Distinguished userParam) := inferInstanceAs (Decidable (_ ∨ _))

private theorem conditional_iff {copied negative error value run : Prop} :
    (copied → ¬negative → (error ∧ value) ∧ run) ∧ error ↔
      error ∧ (negative ∨ ¬copied ∨ value ∧ run) := by
  tauto

section Driven

variable {call : LoadAndRunCall} {userParam : UserParam}

theorem reported_of_not_driven (present : call.request = some userParam)
    (stopped : call.fd < 0 ∨ min call.env.copyIn 64 ≠ 0) : call.Reported := by
  have refused : ioctl call.fd (call.envWith userParam) iocLoadAndRunLinux call.userParamAddr =
      (-1, []) := by
    by_cases closed : call.fd < 0
    · exact if_pos closed
    · rw [ioctl_loadAndRun call userParam (Int.not_lt.mp closed),
        if_pos (stopped.resolve_left closed)]
  intro ret events returned
  rw [plenclaveLoadAndRun_of_request present, refused, if_pos (by decide), Option.some.injEq,
    Prod.mk.injEq] at returned
  rcases returned with ⟨rfl, rfl⟩
  exact ⟨fun zero => absurd zero (by decide), fun _ event member => absurd member (by simp)⟩

theorem reported_iff_driven (present : call.request = some userParam) (opened : 0 ≤ call.fd)
    (complete : min call.env.copyIn 64 = 0) :
    call.Reported ↔
      (min call.env.copyBack 64 = 0 → ¬(call.driven userParam).1 < 0 →
        call.env.answers.load = succeeded ∧ call.env.answers.run = succeeded ∧
          ∃ stores teeSbiParam,
            (call.driven userParam).2 = .sbiLoad :: stores ++ [.sbiRun teeSbiParam]) ∧
      (call.env.answers.load.error ≠ 0 →
        ∀ event ∈ (call.driven userParam).2, event = .sbiLoad) := by
  have status : (if (if min call.env.copyBack 64 ≠ 0 ∨ (call.driven userParam).1 < 0 then -1
      else (call.driven userParam).1) < 0 then (-1 : Int32) else 0) = 0 ↔
        min call.env.copyBack 64 = 0 ∧ ¬(call.driven userParam).1 < 0 := by
    by_cases failed : min call.env.copyBack 64 ≠ 0 ∨ (call.driven userParam).1 < 0
    · rw [if_pos failed, if_pos (by decide)]
      exact ⟨fun zero => absurd zero (by decide), fun passed => absurd failed (by tauto)⟩
    · rw [if_neg failed]
      rw [not_or, not_not] at failed
      exact ⟨fun _ => failed, fun _ => if_neg failed.2⟩
  simp only [LoadAndRunCall.Reported, plenclaveLoadAndRun_of_request present,
    ioctl_loadAndRun call userParam opened, complete, ne_eq, not_true_eq_false, if_false,
    Option.some.injEq, Prod.mk.injEq]
  constructor
  · intro reported
    rcases reported _ _ ⟨rfl, rfl⟩ with ⟨success, stopped⟩
    exact ⟨fun returned passed => success (status.mpr ⟨returned, passed⟩), stopped⟩
  · rintro ⟨success, stopped⟩ ret events ⟨rfl, rfl⟩
    exact ⟨fun zero => success (status.mp zero).1 (status.mp zero).2, stopped⟩

theorem reported_iff_of_refused (present : call.request = some userParam) (opened : 0 ≤ call.fd)
    (complete : min call.env.copyIn 64 = 0)
    (refused : call.env.answers.load.value.toInt32 ≠ 0) :
    call.Reported ↔ call.Distinguished userParam := by
  have driven : call.driven userParam = (call.env.answers.load.value.toInt32, [.sbiLoad]) :=
    penglaiLoadAndRunLinux_of_refused _ _ refused
  have never : ¬∃ stores teeSbiParam, [Event.sbiLoad] =
      .sbiLoad :: stores ++ [.sbiRun teeSbiParam] := by
    rintro ⟨stores, teeSbiParam, same⟩
    simp at same
  have sign : ¬call.env.answers.load.value.toInt32 < 0 ↔
      0 < call.env.answers.load.value.toInt32 := by
    have sides := Int32.lt_or_lt_of_ne refused
    have apart : call.env.answers.load.value.toInt32 < 0 →
        ¬0 < call.env.answers.load.value.toInt32 :=
      fun less => Int32.not_lt.mpr (Int32.le_of_lt less)
    tauto
  rw [reported_iff_driven present opened complete, driven, LoadAndRunCall.Distinguished]
  simp only [never, and_false, imp_false, not_not, List.mem_singleton, imp_self, implies_true,
    and_true, refused, false_and, or_false]
  tauto

theorem reported_iff_of_accepted (present : call.request = some userParam)
    (opened : 0 ≤ call.fd) (complete : min call.env.copyIn 64 = 0)
    (accepted : call.env.answers.load.value.toInt32 = 0) :
    call.Reported ↔ call.Distinguished userParam := by
  have irrefl : ¬(0 : Int32) < 0 := by decide
  by_cases placed : Placed call.env.answers userParam
  · have driven := penglaiLoadAndRunLinux_of_placed (call.envWith userParam).user accepted placed
    rw [reported_iff_driven present opened complete, LoadAndRunCall.driven, driven,
      LoadAndRunCall.Distinguished]
    have issued : ∀ (first second : Event) (param : TeeSbiParam), ∃ stores teeSbiParam,
        [Event.sbiLoad, first, second, .sbiRun param] =
          .sbiLoad :: stores ++ [.sbiRun teeSbiParam] :=
      fun first second param => ⟨[first, second], param, rfl⟩
    have answered : call.env.answers.load = succeeded ↔
        call.env.answers.load.error = 0 ∧ call.env.answers.load.value = 0 := by
      cases call.env.answers.load
      simp [succeeded]
    have skipped : ∀ (address : UInt64) (bytes : List UInt8) (rest : List Event),
        ¬∀ event ∈ .sbiLoad :: .store address bytes :: rest, event = Event.sbiLoad :=
      fun address bytes rest all => absurd (all (.store address bytes) (by simp)) (by simp)
    simp only [issued, skipped, accepted, placed, answered, and_true, imp_false, not_not,
      not_true_eq_false, false_or, irrefl, false_and, true_and, runLinux, retval]
    exact conditional_iff
  · rcases penglaiLoadAndRunLinux_of_unplaced (call.envWith userParam).user accepted placed with
      ⟨stores, driven, -⟩
    rw [reported_iff_driven present opened complete, LoadAndRunCall.driven, driven,
      LoadAndRunCall.Distinguished]
    simp [efault_neg, accepted, placed, irrefl]

end Driven

theorem loadAndRun_reported_iff (call : LoadAndRunCall) :
    call.Reported ↔ ∀ userParam, call.request = some userParam → 0 ≤ call.fd →
      min call.env.copyIn 64 = 0 → call.Distinguished userParam := by
  cases present : call.request with
  | none =>
      have reported : call.Reported := by
        intro ret events returned
        rcases plenclaveLoadAndRun_of_no_request present returned with ⟨rfl, rfl⟩
        exact ⟨fun zero => absurd zero (by decide), fun _ event member => absurd member (by simp)⟩
      simp [reported]
  | some userParam =>
      simp only [Option.some.injEq, forall_eq']
      by_cases reached : 0 ≤ call.fd ∧ min call.env.copyIn 64 = 0
      · simp only [reached.1, reached.2, true_imp_iff]
        by_cases accepted : call.env.answers.load.value.toInt32 = 0
        · exact reported_iff_of_accepted present reached.1 reached.2 accepted
        · exact reported_iff_of_refused present reached.1 reached.2 accepted
      · have stopped : call.fd < 0 ∨ min call.env.copyIn 64 ≠ 0 := by
          rw [not_and_or, Int.not_le] at reached
          exact reached
        refine ⟨fun _ opened complete => absurd ⟨opened, complete⟩ reached, fun _ => ?_⟩
        exact reported_of_not_driven present stopped

/-! ## Attestation -/

def AttestReported (fd : Int) (env : IoctlEnv) (attestParamAddr nonce : UInt64) : Prop :=
  (plenclaveAttest fd env attestParamAddr nonce).1 = 0 →
    env.attest = succeeded ∧
      (plenclaveAttest fd env attestParamAddr nonce).2 = [.sbiAttest nonce]

theorem plenclaveAttest_events {fd : Int} (opened : 0 ≤ fd) (env : IoctlEnv)
    (complete : min env.copyIn (8 + reportLength) = 0) (attestParamAddr nonce : UInt64) :
    (plenclaveAttest fd env attestParamAddr nonce).2 = [.sbiAttest nonce] := by
  have written := env.user.read_write attestParamAddr
    (show (leBytes64 nonce).length ≤ 2 ^ 64 by simp)
  rw [leBytes64_length] at written
  have asked : wordAt ((env.user.write attestParamAddr (leBytes64 nonce)).read attestParamAddr
      (8 + reportLength)) 0 = nonce := by
    rw [Memory.read_add, written, wordAt_zero]
  have copied : min ({ env with user := env.user.write attestParamAddr (leBytes64 nonce) } :
      IoctlEnv).copyIn (8 + reportLength) = 0 := complete
  simp only [plenclaveAttest, ioctl, if_neg (Int.not_lt.mpr opened)]
  rw [penglaiEnclaveIoctl_attest attestParamAddr copied]
  simp only [copyToUser, asked]

theorem plenclaveAttest_of_incomplete {fd : Int} (opened : 0 ≤ fd) (env : IoctlEnv)
    (incomplete : min env.copyIn (8 + reportLength) ≠ 0) (attestParamAddr nonce : UInt64) :
    (plenclaveAttest fd env attestParamAddr nonce).2 = [] := by
  have refused : penglaiEnclaveIoctl
      { env with user := env.user.write attestParamAddr (leBytes64 nonce) } iocAttestLinux
      attestParamAddr = ⟨efault, [], []⟩ :=
    penglaiEnclaveIoctl_of_incomplete _ (by decide) (by rwa [iocSize_attestLinux])
  simp only [plenclaveAttest, ioctl, if_neg (Int.not_lt.mpr opened), refused]

theorem attest_reported_iff (fd : Int) (env : IoctlEnv) (attestParamAddr nonce : UInt64) :
    AttestReported fd env attestParamAddr nonce ↔
      (0 ≤ fd → min env.copyIn (8 + reportLength) = 0 → env.attest.value.toInt32 < 0 ∨
        min env.copyBack (8 + reportLength) ≠ 0 ∨ env.attest = succeeded) := by
  by_cases opened : 0 ≤ fd
  · have status := ioctl_attest opened
      { env with user := env.user.write attestParamAddr (leBytes64 nonce) } attestParamAddr
    by_cases complete : min env.copyIn (8 + reportLength) = 0
    · rw [AttestReported, plenclaveAttest_events opened env complete]
      simp only [plenclaveAttest, status, complete, ne_eq, not_true_eq_false, if_false, and_true,
        opened, true_imp_iff]
      by_cases failed : min env.copyBack (8 + reportLength) ≠ 0 ∨ attestLinux env.attest < 0
      · rw [if_pos failed]
        have reported : env.attest.value.toInt32 < 0 ∨
            min env.copyBack (8 + reportLength) ≠ 0 ∨ env.attest = succeeded :=
          failed.elim (fun back => Or.inr (Or.inl back)) Or.inl
        exact ⟨fun _ => reported, fun _ zero => absurd zero (by decide)⟩
      · rw [if_neg failed]
        rw [not_or] at failed
        rw [if_neg failed.2, eq_self, true_imp_iff]
        exact ⟨fun answer => Or.inr (Or.inr answer),
          fun cases => (cases.resolve_left failed.2).resolve_left failed.1⟩
    · have refused : (plenclaveAttest fd env attestParamAddr nonce).1 = -1 := by
        simp only [plenclaveAttest, status, if_pos complete]
        decide
      rw [AttestReported, refused]
      exact ⟨fun _ _ copied => absurd copied complete, fun _ zero => absurd zero (by decide)⟩
  · have refused : (plenclaveAttest fd env attestParamAddr nonce).1 = -1 := by
      simp only [plenclaveAttest, ioctl, if_pos (Int.not_le.mp opened)]
      decide
    rw [AttestReported, refused]
    exact ⟨fun _ valid => absurd valid opened, fun _ zero => absurd zero (by decide)⟩

/-! ## Both calls -/

/-- The library reports the answers of the monitor as they are exactly if the truncated
values, which are all it sees, tell them apart. -/
theorem reported_iff (call : LoadAndRunCall) (fd : Int) (env : IoctlEnv)
    (attestParamAddr nonce : UInt64) :
    (call.Reported ↔ ∀ userParam, call.request = some userParam → 0 ≤ call.fd →
      min call.env.copyIn 64 = 0 → call.Distinguished userParam) ∧
    (AttestReported fd env attestParamAddr nonce ↔
      (0 ≤ fd → min env.copyIn (8 + reportLength) = 0 → env.attest.value.toInt32 < 0 ∨
        min env.copyBack (8 + reportLength) ≠ 0 ∨ env.attest = succeeded)) :=
  ⟨loadAndRun_reported_iff call, attest_reported_iff fd env attestParamAddr nonce⟩

def failingEnv : IoctlEnv where
  staleData := Vector.replicate 1024 0
  staleReport := Vector.replicate reportLength 0
  user := fun _ => 0
  copyIn := 0
  copyBack := 0
  answers := { load := ⟨-1, 0⟩, bin := 0, dtb := 0, css := 0, run := ⟨-1, 0⟩ }
  attest := ⟨-1, 0⟩
  filled := none

def failingCall : LoadAndRunCall where
  fd := 3
  userParamAddr := 0x1000
  uBinFile := some ⟨4, 4096, 0x10000⟩
  binLoadaddr := 0x80000000
  uDtbFile := some ⟨5, 4096, 0x20000⟩
  dtbLoadaddr := 0x90000000
  uCssFile := some ⟨6, 4096, 0x30000⟩
  env := failingEnv

theorem failingCall_not_reported :
    ¬failingCall.Reported ∧ ¬AttestReported 3 failingEnv 0x2000 7 := by
  constructor
  · rw [loadAndRun_reported_iff]
    intro distinguished
    exact absurd (distinguished _ rfl (by decide) (by decide)) (by decide)
  · rw [attest_reported_iff]
    decide

end Penglai.Lib
