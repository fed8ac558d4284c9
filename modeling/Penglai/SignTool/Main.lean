import Penglai.Foundation.Strtol
import Penglai.Gm.Library
import Penglai.SignTool.ElfFile
import Penglai.SignTool.KeyFile
import Penglai.SignTool.Measure

namespace Penglai.SignTool

open Gm

/-! # Sign mode (`main` of `sign_tool.c`)

One run of the tool on an accepted `sign` command line, from process start. The
environment decides what every system call answers and what uninitialised memory
holds; a run that touches unmapped memory is killed. -/

structure Path where
  imageFile : String
  imageLdaddr : String
  dtbFile : String
  dtbLdaddr : String
  key : String
  output : String

/-- What `load_secure_linux` makes of `path[IMAGE_LDADDR]`, whatever the text writes. -/
def Path.binLoadaddr (path : Path) : UInt64 := UInt64.ofInt (strtol16 path.imageLdaddr.toList)

def Path.dtbLoadaddr (path : Path) : UInt64 := UInt64.ofInt (strtol16 path.dtbLdaddr.toList)

structure SignEnv where
  path : Path
  space : AddressSpace
  image : FileOutcome space
  dtb : FileOutcome space
  /-- What `malloc` returns for the two `struct elf_args` and for `user_param`. -/
  staleEnclaveFile : ElfArgs
  staleDtbFile : ElfArgs
  staleUserParam : UserParam
  /-- The stack where the hash context of `hash_sec_linux` lies. -/
  staleHashBuf : Bytes 64
  /-- Whether unmapping what a record describes takes away memory in use. -/
  unmapKills : ElfArgs → Bool
  /-- The local `enclave_css` and the `malloc`ed `private_key` before they are written. -/
  staleCss : EnclaveCss
  stalePrivateKey : Bytes 32
  /-- What OpenSSL prints behind the two header lines; without a key it crashes. -/
  keyText : Option (List UInt8)
  /-- Bytes of the css that `fwrite` stores, if `fopen` succeeds. -/
  stored : Option Nat

/-! ## Loading -/

def elfArgsDestroy (env : SignEnv) (elfArgs : ElfArgs) : Option Unit :=
  if env.unmapKills elfArgs then none else some ()

def SignEnv.userParam (env : SignEnv) : UserParam :=
  let enclaveFile := elfArgsInit env.staleEnclaveFile env.image
  let dtbFile := elfArgsInit env.staleDtbFile env.dtb
  { env.staleUserParam with
    binPtr := enclaveFile.ptr
    binSize := enclaveFile.size
    binLoadaddr := env.path.binLoadaddr
    dtbPtr := dtbFile.ptr
    dtbSize := dtbFile.size
    dtbLoadaddr := env.path.dtbLoadaddr }

def hashMapped (env : SignEnv) : Option (Bytes 32) :=
  let userParam := env.userParam
  if env.space.Readable userParam.binPtr userParam.binSize ∧
      env.space.Readable userParam.dtbPtr userParam.dtbSize then
    some (hashSecLinux env.staleHashBuf env.space.bytes userParam)
  else none

/-- `load_secure_linux`: the status is zero on every path, so only `enclave_hash`
tells what happened; `none` if the process is killed. -/
def loadSecureLinux (env : SignEnv) : Option (Bytes 32) := do
  let enclaveFile := elfArgsInit env.staleEnclaveFile env.image
  if ¬elfValid enclaveFile then
    elfArgsDestroy env enclaveFile
    some env.staleCss.enclaveHash
  else
    let dtbFile := elfArgsInit env.staleDtbFile env.dtb
    if ¬elfValid dtbFile then
      elfArgsDestroy env enclaveFile
      elfArgsDestroy env dtbFile
      some env.staleCss.enclaveHash
    else
      let enclaveHash ← hashMapped env
      elfArgsDestroy env enclaveFile
      elfArgsDestroy env dtbFile
      some enclaveHash

/-! ## Answers of the library -/

def status : Response → Nat
  | .initFailed status => status
  | .pubkey status _ => status
  | .keyPair status _ _ => status
  | .signed _ status _ => status
  | .verdict status => status
  | _ => 0

def keyAfter (stale : PublicKey) : Response → PublicKey
  | .pubkey _ key => key
  | _ => stale

def signatureAfter (stale : Signature) : Response → Signature
  | .signed _ _ (some signature) => signature
  | _ => stale

def randOf : Response → Option (Bytes 32)
  | .signed rand _ _ => some rand
  | _ => none

/-! ## The run -/

structure SignRun where
  css : EnclaveCss
  privateKey : Bytes 32
  parseStatus : Nat
  signStatus : Nat
  rand : Option (Bytes 32)
  verifyStatus : Nat

/-- How a run ends. `main` returns zero in each case that is not `killed`. -/
inductive Outcome where
  | killed
  /-- "ERROR: verify enclave_css struct failed!" -/
  | refused (run : SignRun)
  /-- "Succeed.", with what the OUTPUT file then holds, if it could be opened. -/
  | succeed (run : SignRun) (output : Option (List UInt8))

def cssBytes (css : EnclaveCss) : List UInt8 :=
  css.enclaveHash.toList ++ css.signatureR.toList ++ css.signatureS.toList ++
    css.userPubKeyX.toList ++ css.userPubKeyY.toList

def writeDataToFile (env : SignEnv) (css : EnclaveCss) : Option (List UInt8) :=
  env.stored.map fun count => (cssBytes css).take count

def hashMessage (enclaveHash : Bytes 32) : Message := ⟨enclaveHash.toList, by simp⟩

def conclude (env : SignEnv) (run : SignRun) : Outcome :=
  if run.verifyStatus ≠ 0 then .refused run else .succeed run (writeDataToFile env run.css)

def Outcome.run? : Outcome → Option SignRun
  | .killed => none
  | .refused run => some run
  | .succeed run _ => some run

@[simp] theorem run?_conclude (env : SignEnv) (run : SignRun) :
    (conclude env run).run? = some run := by
  rw [conclude]
  split <;> rfl

section Main

variable (fuel : Nat) (detached : Call → LibState → Option Detached)

structure ParsedKey where
  status : Nat
  privKey : Bytes 32
  pubkey : PublicKey

def parsePrivKeyFile (lib : LibState) (privKey : Bytes 32) (pubkey : PublicKey)
    (line : List UInt8) : Option (ParsedKey × LibState) := do
  let privKey := scanPrivKey privKey line
  let (made, lib) ← lib.call fuel detached (.makePubkey privKey)
  some (⟨status made, privKey, keyAfter pubkey made⟩, lib)

/-- The part of the run behind loading: `parse_priv_key_file`, `sign_sec_linux`,
`verify_sec_linux`. No status but the last is looked at. -/
def certify (env : SignEnv) (enclaveHash : Bytes 32) (keyText : List UInt8) :
    Option SignRun := do
  let (parsed, lib) ← parsePrivKeyFile fuel detached LibState.start env.stalePrivateKey
    ⟨env.staleCss.userPubKeyX, env.staleCss.userPubKeyY⟩ keyText
  let message := hashMessage enclaveHash
  let (signed, lib) ← lib.call fuel detached (.sign message parsed.privKey)
  let signature := signatureAfter ⟨env.staleCss.signatureR, env.staleCss.signatureS⟩ signed
  let (verified, _) ← lib.call fuel detached (.verify message parsed.pubkey signature)
  some
    { css := ⟨enclaveHash, signature.r, signature.s, parsed.pubkey.px, parsed.pubkey.py⟩
      privateKey := parsed.privKey
      parseStatus := parsed.status
      signStatus := status signed
      rand := randOf signed
      verifyStatus := status verified }

/-- `main` in sign mode; `none` if a rejection loop uses up its bound. -/
def signMain (env : SignEnv) : Option Outcome :=
  match loadSecureLinux env, env.keyText with
  | some enclaveHash, some keyText =>
      (certify fuel detached env enclaveHash keyText).map (conclude env)
  | _, _ => some .killed

end Main

end Penglai.SignTool
