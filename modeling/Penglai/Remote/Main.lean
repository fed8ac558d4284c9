import Penglai.SignTool.Main

namespace Penglai.Remote

open Gm

/-! # The remote verifier (`main` of `remote.c`)

It reads a report into a local variable and compares and verifies what the variable
then holds. The directory `gm` of the verifier is that of the sign tool. -/

/-! ## The report (`remote.h`) -/

def publicKeySize : Nat := 64

def hashSize : Nat := 32

def signatureSize : Nat := 64

def teeCustomFieldSize : Nat := 512

def teeSigMessageSize : Nat := hashSize + teeCustomFieldSize + 8

def teeReportSize : Nat := teeSigMessageSize + signatureSize + publicKeySize

structure TeeSigMessage where
  hash : Bytes hashSize
  customField : Bytes teeCustomFieldSize
  nonce : Bytes 8
  deriving DecidableEq

structure TeeReport where
  sigMessage : TeeSigMessage
  signature : Bytes signatureSize
  smPubKey : Bytes publicKeySize
  deriving DecidableEq

def field (width : Nat) (bytes : List UInt8) (offset : Nat) : Bytes width :=
  Vector.ofFn fun position => bytes.getD (offset + position.val) 0

def TeeReport.ofBytes (bytes : List UInt8) : TeeReport where
  sigMessage :=
    { hash := field hashSize bytes 0
      customField := field teeCustomFieldSize bytes hashSize
      nonce := field 8 bytes (hashSize + teeCustomFieldSize) }
  signature := field signatureSize bytes teeSigMessageSize
  smPubKey := field publicKeySize bytes (teeSigMessageSize + signatureSize)

def TeeSigMessage.message (sigMessage : TeeSigMessage) : Message where
  bytes := sigMessage.hash.toList ++ sigMessage.customField.toList ++ sigMessage.nonce.toList
  short := by
    rw [List.length_append, List.length_append, Vector.length_toList, Vector.length_toList,
      Vector.length_toList]
    decide

def toSignature (signatureArg : Bytes signatureSize) : Signature where
  r := field 32 signatureArg.toList 0
  s := field 32 signatureArg.toList 32

def toPublicKey (pubkeyArg : Bytes publicKeySize) : PublicKey where
  px := field 32 pubkeyArg.toList 0
  py := field 32 pubkeyArg.toList 32

/-! ## Reading a file (`util.c`) -/

/-- `read_file_to_buf`: what the file holds, if it can be opened, is stored as far as
it and the size go. -/
def readFileToBuf (file : Option (List UInt8)) (buffer : List UInt8) (bsize offset : Nat) :
    Int × List UInt8 :=
  match file with
  | none => (-1, buffer)
  | some content =>
      let stored := (content.drop offset).take bsize
      let count := stored.length
      let buffer := stored ++ buffer.drop count
      if count ≠ bsize then (-1, buffer) else (0, buffer)

/-! ## The verdict -/

def devPubkey : Bytes publicKeySize := #v[
  0x09, 0xF9, 0xDF, 0x31, 0x1E, 0x54, 0x21, 0xA1, 0x50, 0xDD, 0x7D, 0x16, 0x1E, 0x4B, 0xC5, 0xC6,
  0x72, 0x17, 0x9F, 0xAD, 0x18, 0x33, 0xFC, 0x07, 0x6B, 0xB0, 0x8F, 0xF3, 0x56, 0xF3, 0x50, 0x20,
  0xCC, 0xEA, 0x49, 0x0C, 0xE2, 0x67, 0x75, 0xA5, 0x2D, 0xC6, 0xEA, 0x71, 0x8C, 0xC1, 0xAA, 0x60,
  0x0A, 0xED, 0x05, 0xFB, 0xF3, 0x5E, 0x08, 0x4A, 0x66, 0x32, 0xF6, 0x07, 0x2D, 0xA9, 0xAD, 0x13]

section Main

variable (fuel : Nat) (detached : Call → LibState → Option Detached)

/-- `verify_signature`: the first call of the library in the process. -/
def verifySignature (signatureArg : Bytes signatureSize) (message : Message)
    (pubkeyArg : Bytes publicKeySize) : Option Nat := do
  let (verified, _) ← LibState.start.call fuel detached
    (.verify message (toPublicKey pubkeyArg) (toSignature signatureArg))
  some (SignTool.status verified)

/-- `main`, with `pass_auth` at its end; `report` starts with what its memory held.
The status of `read_file_to_buf` is ignored. -/
def remoteMain (file : Option (List UInt8)) (staleReport : Bytes teeReportSize) :
    Option Bool := do
  let (_, buffer) := readFileToBuf file staleReport.toList teeReportSize 0
  let report := TeeReport.ofBytes buffer
  let passAuth := true
  let passAuth := if report.smPubKey = devPubkey then passAuth else false
  let ret ← verifySignature fuel detached report.signature report.sigMessage.message
    report.smPubKey
  let passAuth := if ret = 0 then passAuth else false
  some passAuth

end Main

end Penglai.Remote
