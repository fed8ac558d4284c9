import Penglai.Interface

namespace Penglai.Driver

/-! # Monitor calls (`penglai-enclave.c` of the driver)

The answer of the monitor is a pair; the wrappers print a message for the error and
return the value as an `int`. -/

structure SbiRet where
  error : Int64
  value : Int64
  deriving DecidableEq

def retval (ret : SbiRet) : Int32 := ret.value.toInt32

def loadLinux (ret : SbiRet) : Int32 := retval ret

def runLinux (ret : SbiRet) : Int32 := retval ret

def attestLinux (ret : SbiRet) : Int32 := retval ret

structure TeeSbiParam where
  binSize : UInt64
  binLoadaddr : UInt64
  dtbSize : UInt64
  dtbLoadaddr : UInt64
  enclaveCss : List UInt8
  deriving DecidableEq

/-- `sizeof(enclave_css_t)`. -/
def cssLength : Nat := 160

inductive Event where
  | sbiLoad
  | store (address : UInt64) (bytes : List UInt8)
  | sbiRun (teeSbiParam : TeeSbiParam)
  | sbiAttest (nonce : UInt64)
  deriving DecidableEq

def Event.apply (memory : Memory) : Event → Memory
  | .store address bytes => memory.write address bytes
  | _ => memory

/-- `copy_from_user`: how many bytes are left, and what lies in the destination. The
part that could not be read is filled with zeros. -/
def copyFromUser (user : Memory) (source : UInt64) (size uncopied : Nat) : Nat × List UInt8 :=
  (min uncopied size,
    user.read source (size - uncopied) ++ List.replicate (min uncopied size) 0)

theorem copyFromUser_of_complete {size uncopied : Nat} (complete : min uncopied size = 0)
    (user : Memory) (source : UInt64) :
    copyFromUser user source size uncopied = (0, user.read source size) := by
  have all : uncopied = 0 ∨ size = 0 := by omega
  cases all with
  | inl all => simp [copyFromUser, all]
  | inr empty => simp [copyFromUser, empty]

end Penglai.Driver
