import Penglai.Cmdline.Programs
import Penglai.Foundation.Strtol
import Penglai.Lib.Reporting
import Penglai.SignTool.ElfFile

namespace Penglai.Host

open Cmdline Driver Lib SignTool

/-! # The host tool (`main` of `host.c`)

From the command line to the call of the library: files are mapped, addresses and the
nonce are read with `strtol`. -/

structure HostEnv where
  space : AddressSpace
  image : FileOutcome space
  dtb : FileOutcome space
  css : FileOutcome space
  staleEnclaveFile : ElfArgs
  staleDtbFile : ElfArgs
  staleCcsFile : ElfArgs
  /-- The descriptor of the device, and where the `struct PLenclave` lies. -/
  device : Int
  userParamAddr : UInt64
  attestParamAddr : UInt64
  ioctl : IoctlEnv

inductive LibCall where
  | loadAndRun (call : LoadAndRunCall)
  | attest (nonce : UInt64)

def hexArgument (text : String) : UInt64 := UInt64.ofInt (strtol16 text.toList)

/-- `RUN` mode behind its message: the outer `none` is the read of a null string, the
inner one an error of a file. -/
def runMode (env : HostEnv) (path : Nat → Option String) : Option (Option LibCall) := do
  let imageLdaddr ← path Cmdline.Host.FilePath.imageLdaddr.index
  let enclaveFile := elfArgsInit env.staleEnclaveFile env.image
  if ¬elfValid enclaveFile then some none
  else
    let dtbLdaddr ← path Cmdline.Host.FilePath.dtbLdaddr.index
    let dtbFile := elfArgsInit env.staleDtbFile env.dtb
    if ¬elfValid dtbFile then some none
    else
      let ccsFile := elfArgsInit env.staleCcsFile env.css
      if ¬elfValid ccsFile then some none
      else
        some (some (.loadAndRun
          { fd := env.device
            userParamAddr := env.userParamAddr
            uBinFile := some enclaveFile
            binLoadaddr := hexArgument imageLdaddr
            uDtbFile := some dtbFile
            dtbLoadaddr := hexArgument dtbLdaddr
            uCssFile := some ccsFile
            env := env.ioctl }))

def attestMode (path : Nat → Option String) : Option (Option LibCall) := do
  let nonce ← path Cmdline.Host.FilePath.nonce.index
  some (some (.attest (hexArgument nonce)))

def libCall (env : HostEnv) (argv : List String) : Option (Option LibCall) :=
  let parsed := cmdlineParse host argv startCaller
  if parsed.ret = false then some none
  else if parsed.caller.mode = 0 then runMode env parsed.caller.path.cell
  else if parsed.caller.mode = 1 then attestMode parsed.caller.path.cell
  else some none

def hostMain (env : HostEnv) (argv : List String) : Option (List Event) := do
  match ← libCall env argv with
  | none => some []
  | some (.loadAndRun call) => (plenclaveLoadAndRun call).map Prod.snd
  | some (.attest nonce) =>
      some (plenclaveAttest env.device env.ioctl env.attestParamAddr nonce).2

/-! ## Accepted command lines -/

section Accepted

variable {env : HostEnv} {argv : List String} {pairs : List (String × String)}

theorem libCall_of_accepts {mode : Nat} (accepts : host.Accepts argv mode pairs) :
    libCall env argv =
      if mode = 0 then runMode env (cmdlineParse host argv startCaller).caller.path.cell
      else if mode = 1 then attestMode (cmdlineParse host argv startCaller).caller.path.cell
      else some none := by
  have accepted := cmdlineParse_of_accepts startCaller accepts
  have ret : (cmdlineParse host argv startCaller).ret = true := by rw [accepted]
  have parsedMode : (cmdlineParse host argv startCaller).caller.mode = mode := by rw [accepted]
  simp only [libCall, ret, parsedMode, Bool.true_eq_false, if_false, Int.natCast_eq_zero,
    Nat.cast_eq_one]

theorem runMode_loadaddr {path : Nat → Option String} {call : LoadAndRunCall}
    (made : runMode env path = some (some (.loadAndRun call))) :
    ∃ imageLdaddr dtbLdaddr, path Cmdline.Host.FilePath.imageLdaddr.index = some imageLdaddr ∧
      path Cmdline.Host.FilePath.dtbLdaddr.index = some dtbLdaddr ∧
      call.binLoadaddr = hexArgument imageLdaddr ∧ call.dtbLoadaddr = hexArgument dtbLdaddr := by
  rcases Option.bind_eq_some_iff.mp made with ⟨imageLdaddr, image, made⟩
  dsimp only at made
  split at made
  · cases made
  · rcases Option.bind_eq_some_iff.mp made with ⟨dtbLdaddr, dtb, made⟩
    split at made
    · cases made
    · split at made
      · cases made
      · cases made
        exact ⟨imageLdaddr, dtbLdaddr, image, dtb, rfl, rfl⟩

theorem request_of_run (accepts : host.Accepts argv 0 pairs) {call : LoadAndRunCall}
    (made : libCall env argv = some (some (.loadAndRun call))) {userParam : UserParam}
    (request : call.request = some userParam) (text : String) :
    (("-imageaddr", text) ∈ pairs → userParam.binLoadaddr = hexArgument text) ∧
      (("-dtbaddr", text) ∈ pairs → userParam.dtbLoadaddr = hexArgument text) := by
  rw [libCall_of_accepts accepts, if_pos rfl] at made
  rcases runMode_loadaddr made with ⟨imageLdaddr, dtbLdaddr, image, dtb, bin, dtbAddr⟩
  rcases call.request_loadaddr request with ⟨binSent, dtbSent⟩
  rw [binSent, dtbSent, bin, dtbAddr]
  constructor
  · intro given
    rw [value_of_cell accepts rfl given image]
  · intro given
    rw [value_of_cell accepts rfl given dtb]

theorem request_of_mapped (accepts : host.Accepts argv 0 pairs) {fd fd' fd'' : Nat}
    {image dtb css : MappedFile env.space} (imageMapped : env.image = .mapped fd image)
    (dtbMapped : env.dtb = .mapped fd' dtb) (cssMapped : env.css = .mapped fd'' css) :
    ∃ call userParam, libCall env argv = some (some (.loadAndRun call)) ∧
      call.request = some userParam := by
  have valid : ∀ (stale : ElfArgs) (fd : Nat) (file : MappedFile env.space),
      elfValid (elfArgsInit stale (.mapped fd file)) := fun stale fd file =>
    (elfValid_elfArgsInit stale (.mapped fd file)).mpr trivial
  have present : ∀ (stale : ElfArgs) (fd : Nat) (file : MappedFile env.space),
      ¬fileMissing (elfArgsInit stale (.mapped fd file)) := by
    rintro stale fd file (null | empty)
    · exact (valid stale fd file).2.2 null
    · exact absurd (valid stale fd file).2.1 (UInt64.not_lt.mpr empty)
  rcases cell_of_required startCaller accepts rfl
    (show Cmdline.Host.paramsRun[Cmdline.Host.FilePath.imageLdaddr.index]? = _ from rfl) with
    ⟨imageLdaddr, imageCell⟩
  rcases cell_of_required startCaller accepts rfl
    (show Cmdline.Host.paramsRun[Cmdline.Host.FilePath.dtbLdaddr.index]? = _ from rfl) with
    ⟨dtbLdaddr, dtbCell⟩
  rw [libCall_of_accepts accepts, if_pos rfl, runMode, imageCell, dtbCell, imageMapped, dtbMapped,
    cssMapped]
  simp only [Option.bind_eq_bind, Option.bind_some, valid, not_true_eq_false, if_false]
  simp [LoadAndRunCall.request, present]

theorem libCall_of_attest (accepts : host.Accepts argv 1 pairs) {text : String}
    (given : ("-nonce", text) ∈ pairs) :
    libCall env argv = some (some (.attest (hexArgument text))) := by
  have cell : (cmdlineParse host argv startCaller).caller.path.cell
      Cmdline.Host.FilePath.nonce.index = some text := cell_of_accepts _ accepts rfl given
  rw [libCall_of_accepts accepts, if_neg (by decide), if_pos rfl, attestMode, cell]
  rfl

end Accepted

end Penglai.Host
