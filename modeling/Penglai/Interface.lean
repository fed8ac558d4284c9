import Penglai.Foundation.Bytes
import Penglai.Foundation.Memory

namespace Penglai

/-! # Data shared by the tool, the library and the driver

The structures of `penglai-enclave.h` and `penglai-enclave-ioctl.h` that cross a
component boundary, for an LP64 little-endian machine. -/

structure ElfArgs where
  fd : Int
  size : UInt64
  ptr : UInt64

structure UserParam where
  binPtr : UInt64
  binSize : UInt64
  binLoadaddr : UInt64
  dtbPtr : UInt64
  dtbSize : UInt64
  dtbLoadaddr : UInt64
  cssPtr : UInt64
  cssSize : UInt64
deriving DecidableEq

/-- `enclave_css_t`; `signature` is `r ‖ s` and `userPubKey` is `xA ‖ yA`. -/
structure EnclaveCss where
  enclaveHash : Bytes 32
  signatureR : Bytes 32
  signatureS : Bytes 32
  userPubKeyX : Bytes 32
  userPubKeyY : Bytes 32
deriving DecidableEq

end Penglai
