import Penglai.Driver.Sbi

namespace Penglai.Driver

/-! # The ioctl interface (`penglai-enclave-ioctl.c`)

The three functions, with the answers of the monitor and of the copies from and to
user space as parameters. The kernel's own objects are no part of the memory the
images are placed in. -/

def efault : Int32 := -14

/-- What `penglai_load_and_run_linux` is answered: the two calls, and for each copy
the number of bytes it leaves. -/
structure LoadAndRunAnswers where
  load : SbiRet
  bin : Nat
  dtb : Nat
  css : Nat
  run : SbiRet

def teeSbiParam (enclaveParam : UserParam) (enclaveCss : List UInt8) : TeeSbiParam where
  binSize := enclaveParam.binSize
  binLoadaddr := enclaveParam.binLoadaddr
  dtbSize := enclaveParam.dtbSize
  dtbLoadaddr := enclaveParam.dtbLoadaddr
  enclaveCss := enclaveCss

def penglaiLoadAndRunLinux (user : Memory) (answers : LoadAndRunAnswers)
    (enclaveParam : UserParam) : Int32 × List Event :=
  let ret := loadLinux answers.load
  if ret ≠ 0 then (ret, [.sbiLoad])
  else
    let (left, bin) :=
      copyFromUser user enclaveParam.binPtr enclaveParam.binSize.toNat answers.bin
    let events := [.sbiLoad, .store enclaveParam.binLoadaddr bin]
    if left ≠ 0 then (efault, events)
    else
      let (left, dtb) :=
        copyFromUser user enclaveParam.dtbPtr enclaveParam.dtbSize.toNat answers.dtb
      let events := events ++ [.store enclaveParam.dtbLoadaddr dtb]
      if left ≠ 0 then (efault, events)
      -- the field compared here is the size of the device tree
      else if enclaveParam.dtbSize.toNat < cssLength then (efault, events)
      else
        let (left, enclaveCss) := copyFromUser user enclaveParam.cssPtr cssLength answers.css
        if left ≠ 0 then (efault, events)
        else
          (runLinux answers.run, events ++ [.sbiRun (teeSbiParam enclaveParam enclaveCss)])

/-- The three copies of a request leave nothing, and the size that is checked is
large enough. -/
def Placed (answers : LoadAndRunAnswers) (enclaveParam : UserParam) : Prop :=
  min answers.bin enclaveParam.binSize.toNat = 0 ∧
  min answers.dtb enclaveParam.dtbSize.toNat = 0 ∧
  cssLength ≤ enclaveParam.dtbSize.toNat ∧ min answers.css cssLength = 0

instance (answers : LoadAndRunAnswers) (enclaveParam : UserParam) :
    Decidable (Placed answers enclaveParam) := inferInstanceAs (Decidable (_ ∧ _))

def storedBin (user : Memory) (answers : LoadAndRunAnswers) (enclaveParam : UserParam) :
    List UInt8 :=
  (copyFromUser user enclaveParam.binPtr enclaveParam.binSize.toNat answers.bin).2

def storedDtb (user : Memory) (answers : LoadAndRunAnswers) (enclaveParam : UserParam) :
    List UInt8 :=
  (copyFromUser user enclaveParam.dtbPtr enclaveParam.dtbSize.toNat answers.dtb).2

theorem penglaiLoadAndRunLinux_of_refused {answers : LoadAndRunAnswers} (user : Memory)
    (enclaveParam : UserParam) (refused : loadLinux answers.load ≠ 0) :
    penglaiLoadAndRunLinux user answers enclaveParam = (loadLinux answers.load, [.sbiLoad]) :=
  if_pos refused

theorem penglaiLoadAndRunLinux_of_unplaced {answers : LoadAndRunAnswers} {enclaveParam : UserParam}
    (user : Memory) (accepted : loadLinux answers.load = 0)
    (unplaced : ¬Placed answers enclaveParam) :
    ∃ stores, penglaiLoadAndRunLinux user answers enclaveParam =
        (efault, .sbiLoad :: .store enclaveParam.binLoadaddr
          (storedBin user answers enclaveParam) :: stores) ∧
      (stores = [] ∨
        stores = [.store enclaveParam.dtbLoadaddr (storedDtb user answers enclaveParam)]) := by
  have binCopy : copyFromUser user enclaveParam.binPtr enclaveParam.binSize.toNat answers.bin =
      (min answers.bin enclaveParam.binSize.toNat, storedBin user answers enclaveParam) := rfl
  have dtbCopy : copyFromUser user enclaveParam.dtbPtr enclaveParam.dtbSize.toNat answers.dtb =
      (min answers.dtb enclaveParam.dtbSize.toNat, storedDtb user answers enclaveParam) := rfl
  rw [penglaiLoadAndRunLinux, if_neg (not_not.mpr accepted), binCopy]
  by_cases bin : min answers.bin enclaveParam.binSize.toNat = 0
  · simp only [bin, ne_eq, not_true_eq_false, if_false, dtbCopy]
    by_cases dtb : min answers.dtb enclaveParam.dtbSize.toNat = 0
    · simp only [dtb, not_true_eq_false, if_false]
      by_cases small : enclaveParam.dtbSize.toNat < cssLength
      · rw [if_pos small]
        exact ⟨_, rfl, Or.inr rfl⟩
      · rw [if_neg small]
        by_cases css : min answers.css cssLength = 0
        · exact absurd ⟨bin, dtb, Nat.le_of_not_lt small, css⟩ unplaced
        · exact ⟨_, if_pos css, Or.inr rfl⟩
    · exact ⟨_, if_pos dtb, Or.inr rfl⟩
  · exact ⟨_, if_pos bin, Or.inl rfl⟩

theorem penglaiLoadAndRunLinux_of_placed {answers : LoadAndRunAnswers} {enclaveParam : UserParam}
    (user : Memory) (accepted : loadLinux answers.load = 0) (placed : Placed answers enclaveParam) :
    penglaiLoadAndRunLinux user answers enclaveParam =
      (runLinux answers.run,
        [.sbiLoad,
          .store enclaveParam.binLoadaddr
            (user.read enclaveParam.binPtr enclaveParam.binSize.toNat),
          .store enclaveParam.dtbLoadaddr
            (user.read enclaveParam.dtbPtr enclaveParam.dtbSize.toNat),
          .sbiRun (teeSbiParam enclaveParam (user.read enclaveParam.cssPtr cssLength))]) := by
  rcases placed with ⟨bin, dtb, large, css⟩
  rw [penglaiLoadAndRunLinux, if_neg (not_not.mpr accepted), copyFromUser_of_complete bin,
    copyFromUser_of_complete dtb, copyFromUser_of_complete css]
  simp only [ne_eq, not_true_eq_false, if_false, if_neg (Nat.not_lt.mpr large)]
  rfl

/-! ## The buffer of the ioctl -/

def wordAt (data : List UInt8) (offset : Nat) : UInt64 :=
  UInt64.ofNat (beNat ((data.drop offset).take 8).reverse)

def userParamAt (data : List UInt8) : UserParam where
  binPtr := wordAt data 0
  binSize := wordAt data 8
  binLoadaddr := wordAt data 16
  dtbPtr := wordAt data 24
  dtbSize := wordAt data 32
  dtbLoadaddr := wordAt data 40
  cssPtr := wordAt data 48
  cssSize := wordAt data 56

/-- `sizeof(struct tee_report_t)`: 32 + 512 + 8 bytes of `sig_message`, 64 of
`signature`, 64 of `sm_pub_key`. -/
def reportLength : Nat := 680

/-- `penglai_attest_linux`: `report` comes from `kmalloc`, the monitor fills it or
leaves it untouched, and it is copied into the buffer behind the nonce. -/
def penglaiAttestLinux (staleReport : Bytes reportLength) (answer : SbiRet)
    (filled : Option (Bytes reportLength)) (data : List UInt8) :
    Int32 × List UInt8 × List Event :=
  let nonce := wordAt data 0
  let ret := attestLinux answer
  let report := filled.getD staleReport
  (ret, data.take 8 ++ report.toList ++ data.drop (8 + reportLength), [.sbiAttest nonce])

def iocSize (cmd : UInt32) : Nat := ((cmd >>> 16) &&& 0x3FFF).toNat

/-- `_IOR(0xa4, 0x00, struct penglai_enclave_user_param)`. -/
def iocLoadAndRunLinux : UInt32 := 0x8040A400

/-- `_IOR(0xa4, 0x01, struct penglai_enclave_ioctl_attest_tee)`. -/
def iocAttestLinux : UInt32 := 0x82B0A401

/-- What one system call finds: old kernel memory, the caller's memory, the bytes the
two copies of the buffer leave, and the answers of the monitor. -/
structure IoctlEnv where
  staleData : Bytes 1024
  staleReport : Bytes reportLength
  user : Memory
  copyIn : Nat
  copyBack : Nat
  answers : LoadAndRunAnswers
  attest : SbiRet
  filled : Option (Bytes reportLength)

structure IoctlResult where
  ret : Int32
  events : List Event
  storedBack : List UInt8

def copyToUser (env : IoctlEnv) (size : Nat) (ret : Int32) (data : List UInt8)
    (events : List Event) : IoctlResult where
  ret := if min env.copyBack size ≠ 0 then efault else ret
  events := events
  storedBack := data.take (size - env.copyBack)

def penglaiEnclaveIoctl (env : IoctlEnv) (cmd : UInt32) (args : UInt64) : IoctlResult :=
  if iocSize cmd > 1024 then ⟨efault, [], []⟩
  else
    let (left, copied) := copyFromUser env.user args (iocSize cmd) env.copyIn
    let ioctlData := copied ++ env.staleData.toList.drop (iocSize cmd)
    if left ≠ 0 then ⟨efault, [], []⟩
    else if cmd = iocLoadAndRunLinux then
      let (ret, events) := penglaiLoadAndRunLinux env.user env.answers (userParamAt ioctlData)
      copyToUser env (iocSize cmd) ret ioctlData events
    else if cmd = iocAttestLinux then
      let (ret, data, events) := penglaiAttestLinux env.staleReport env.attest env.filled ioctlData
      copyToUser env (iocSize cmd) ret data events
    else ⟨efault, [], []⟩

/-! ## What the system call amounts to -/

theorem iocSize_loadAndRunLinux : iocSize iocLoadAndRunLinux = 64 := by decide

theorem iocSize_attestLinux : iocSize iocAttestLinux = 8 + reportLength := by decide

theorem efault_neg : efault < 0 := by decide

theorem penglaiEnclaveIoctl_of_incomplete {env : IoctlEnv} {cmd : UInt32} (args : UInt64)
    (short : iocSize cmd ≤ 1024) (incomplete : min env.copyIn (iocSize cmd) ≠ 0) :
    penglaiEnclaveIoctl env cmd args = ⟨efault, [], []⟩ := by
  rw [penglaiEnclaveIoctl, if_neg (Nat.not_lt.mpr short)]
  exact if_pos incomplete

theorem penglaiEnclaveIoctl_attest {env : IoctlEnv} (args : UInt64)
    (complete : min env.copyIn (8 + reportLength) = 0) :
    penglaiEnclaveIoctl env iocAttestLinux args =
      copyToUser env (8 + reportLength) (attestLinux env.attest)
        ((env.user.read args 8 ++ (env.filled.getD env.staleReport).toList) ++
          env.staleData.toList.drop (8 + reportLength))
        [.sbiAttest (wordAt (env.user.read args (8 + reportLength)) 0)] := by
  have copied := copyFromUser_of_complete complete env.user args
  have front : (env.user.read args (8 + reportLength) ++
      env.staleData.toList.drop (8 + reportLength)).take 8 = env.user.read args 8 := by
    rw [List.take_append_of_le_length (by simp), Memory.read_add, List.take_left' (by simp)]
  have back : (env.user.read args (8 + reportLength) ++
      env.staleData.toList.drop (8 + reportLength)).drop (8 + reportLength) =
        env.staleData.toList.drop (8 + reportLength) := List.drop_left' (by simp)
  have nonce : wordAt (env.user.read args (8 + reportLength) ++
      env.staleData.toList.drop (8 + reportLength)) 0 =
        wordAt (env.user.read args (8 + reportLength)) 0 := by
    rw [wordAt, wordAt, List.drop_zero, List.drop_zero, List.take_append_of_le_length (by simp)]
  rw [penglaiEnclaveIoctl, iocSize_attestLinux, if_neg (by decide), copied]
  simp only [ne_eq, not_true_eq_false, if_false, penglaiAttestLinux, front, back, nonce]
  rw [if_neg (by decide), if_pos trivial]

theorem copyToUser_status (env : IoctlEnv) (size : Nat) (ret : Int32) (data : List UInt8)
    (events : List Event) :
    (if (copyToUser env size ret data events).ret < 0 then -1
      else (copyToUser env size ret data events).ret) =
      if min env.copyBack size ≠ 0 ∨ ret < 0 then -1 else ret := by
  by_cases complete : min env.copyBack size = 0
  · have passed : (copyToUser env size ret data events).ret = ret := if_neg (not_not.mpr complete)
    rw [passed]
    simp [complete]
  · have failed : (copyToUser env size ret data events).ret = efault := if_pos complete
    rw [failed, if_pos efault_neg, if_pos (Or.inl complete)]

end Penglai.Driver
