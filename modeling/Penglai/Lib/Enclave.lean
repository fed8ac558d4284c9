import Penglai.Driver.Ioctl

namespace Penglai.Lib

open Driver

/-! # The user library (`penglai-enclave.c` of `lib`) -/

def userParamBytes (userParam : UserParam) : List UInt8 :=
  leBytes64 userParam.binPtr ++ (leBytes64 userParam.binSize ++
    (leBytes64 userParam.binLoadaddr ++ (leBytes64 userParam.dtbPtr ++
      (leBytes64 userParam.dtbSize ++ (leBytes64 userParam.dtbLoadaddr ++
        (leBytes64 userParam.cssPtr ++ leBytes64 userParam.cssSize))))))

@[simp] theorem userParamBytes_length (userParam : UserParam) :
    (userParamBytes userParam).length = 64 := by
  simp [userParamBytes]

/-- The system call: a negative answer of the driver becomes -1. -/
def ioctl (fd : Int) (env : IoctlEnv) (cmd : UInt32) (args : UInt64) : Int32 × List Event :=
  if fd < 0 then (-1, [])
  else
    let result := penglaiEnclaveIoctl env cmd args
    (if result.ret < 0 then -1 else result.ret, result.events)

/-- The arguments of `PLenclave_load_and_run`, the file descriptor and the address of
`user_param` in the `PLenclave`, and what the system call finds. -/
structure LoadAndRunCall where
  fd : Int
  userParamAddr : UInt64
  uBinFile : Option ElfArgs
  binLoadaddr : UInt64
  uDtbFile : Option ElfArgs
  dtbLoadaddr : UInt64
  uCssFile : Option ElfArgs
  env : IoctlEnv

def fileMissing (file : ElfArgs) : Prop := file.ptr = 0 ∨ file.size ≤ 0

instance (file : ElfArgs) : Decidable (fileMissing file) := inferInstanceAs (Decidable (_ ∨ _))

def LoadAndRunCall.envWith (call : LoadAndRunCall) (userParam : UserParam) : IoctlEnv :=
  { call.env with user := call.env.user.write call.userParamAddr (userParamBytes userParam) }

/-- `PLenclave_load_and_run`; `none` is the access through a null pointer. -/
def plenclaveLoadAndRun (call : LoadAndRunCall) : Option (Int32 × List Event) :=
  match call.uBinFile with
  | none => some (-1, [])
  | some uBinFile =>
      if fileMissing uBinFile then some (-1, [])
      else match call.uDtbFile with
      | none => some (-1, [])
      | some uDtbFile =>
          if fileMissing uDtbFile then some (-1, [])
          else match call.uCssFile with
          | none => none
          | some uCssFile =>
              if fileMissing uCssFile then some (-1, [])
              else
                let userParam : UserParam :=
                  { binPtr := uBinFile.ptr
                    binSize := uBinFile.size
                    binLoadaddr := call.binLoadaddr
                    dtbPtr := uDtbFile.ptr
                    dtbSize := uDtbFile.size
                    dtbLoadaddr := call.dtbLoadaddr
                    cssPtr := uCssFile.ptr
                    cssSize := uCssFile.size }
                let (ret, events) := ioctl call.fd (call.envWith userParam) iocLoadAndRunLinux
                  call.userParamAddr
                some (if ret < 0 then -1 else 0, events)

def plenclaveAttest (fd : Int) (env : IoctlEnv) (attestParamAddr nonce : UInt64) :
    Int32 × List Event :=
  let (ret, events) := ioctl fd
    { env with user := env.user.write attestParamAddr (leBytes64 nonce) } iocAttestLinux
    attestParamAddr
  (if ret < 0 then -1 else 0, events)

/-! ## The request on its way to the driver -/

@[simp] theorem wordAt_zero (word : UInt64) (back : List UInt8) :
    wordAt (leBytes64 word ++ back) 0 = word := by
  have bound : word.toNat < 256 ^ 8 := word.toNat_lt
  rw [wordAt, List.drop_zero, List.take_left' (leBytes64_length word), leBytes64,
    List.reverse_reverse, beNat_beBytes bound, UInt64.ofNat_toNat]

@[simp] theorem wordAt_add (word : UInt64) (back : List UInt8) (offset : Nat) :
    wordAt (leBytes64 word ++ back) (offset + 8) = wordAt back offset := by
  have skipped : (leBytes64 word ++ back).drop (offset + 8) = back.drop offset := by
    rw [Nat.add_comm, ← List.drop_drop, List.drop_left' (leBytes64_length word)]
  rw [wordAt, wordAt, skipped]

theorem userParamAt_userParamBytes (userParam : UserParam) (rest : List UInt8) :
    userParamAt (userParamBytes userParam ++ rest) = userParam := by
  simp [userParamAt, userParamBytes, List.append_assoc]

/-! ## The system calls of the library -/

section LoadAndRun

variable (call : LoadAndRunCall) (userParam : UserParam)

def LoadAndRunCall.driven : Int32 × List Event :=
  penglaiLoadAndRunLinux (call.envWith userParam).user call.env.answers userParam

theorem penglaiEnclaveIoctl_loadAndRun (complete : min call.env.copyIn 64 = 0) :
    penglaiEnclaveIoctl (call.envWith userParam) iocLoadAndRunLinux call.userParamAddr =
      copyToUser (call.envWith userParam) 64 (call.driven userParam).1
        (userParamBytes userParam ++ call.env.staleData.toList.drop 64)
        (call.driven userParam).2 := by
  have request : (call.envWith userParam).user.read call.userParamAddr 64 =
      userParamBytes userParam := by
    have back := call.env.user.read_write call.userParamAddr
      (show (userParamBytes userParam).length ≤ 2 ^ 64 by simp)
    rwa [userParamBytes_length] at back
  have copied := copyFromUser_of_complete
    (show min (call.envWith userParam).copyIn 64 = 0 from complete) (call.envWith userParam).user
    call.userParamAddr
  rw [request] at copied
  rw [penglaiEnclaveIoctl, iocSize_loadAndRunLinux, if_neg (by decide), copied]
  simp only [ne_eq, not_true_eq_false, if_false, if_true]
  rw [userParamAt_userParamBytes]
  rfl

theorem ioctl_loadAndRun (opened : 0 ≤ call.fd) :
    ioctl call.fd (call.envWith userParam) iocLoadAndRunLinux call.userParamAddr =
      if min call.env.copyIn 64 ≠ 0 then (-1, [])
      else
        (if min call.env.copyBack 64 ≠ 0 ∨ (call.driven userParam).1 < 0 then -1
          else (call.driven userParam).1, (call.driven userParam).2) := by
  rw [ioctl, if_neg (Int.not_lt.mpr opened)]
  by_cases incomplete : min call.env.copyIn 64 ≠ 0
  · have refused : penglaiEnclaveIoctl (call.envWith userParam) iocLoadAndRunLinux
        call.userParamAddr = ⟨efault, [], []⟩ :=
      penglaiEnclaveIoctl_of_incomplete _ (by decide) (by rwa [iocSize_loadAndRunLinux])
    rw [refused, if_pos incomplete]
    simp only [if_pos efault_neg]
  · rw [penglaiEnclaveIoctl_loadAndRun call userParam (not_not.mp incomplete), if_neg incomplete]
    simp only [copyToUser_status]
    rfl

end LoadAndRun

theorem ioctl_attest {fd : Int} (opened : 0 ≤ fd) (env : IoctlEnv) (args : UInt64) :
    (ioctl fd env iocAttestLinux args).1 =
      if min env.copyIn (8 + reportLength) ≠ 0 then -1
      else if min env.copyBack (8 + reportLength) ≠ 0 ∨ attestLinux env.attest < 0 then -1
      else attestLinux env.attest := by
  rw [ioctl, if_neg (Int.not_lt.mpr opened)]
  by_cases incomplete : min env.copyIn (8 + reportLength) ≠ 0
  · have refused : penglaiEnclaveIoctl env iocAttestLinux args = ⟨efault, [], []⟩ :=
      penglaiEnclaveIoctl_of_incomplete _ (by decide) (by rwa [iocSize_attestLinux])
    rw [refused, if_pos incomplete]
    simp only [if_pos efault_neg]
  · rw [penglaiEnclaveIoctl_attest args (not_not.mp incomplete), if_neg incomplete]
    simp only [copyToUser_status]

end Penglai.Lib
