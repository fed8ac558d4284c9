import Penglai.Host.Main
import Penglai.SignTool.Nonce

namespace Penglai.Host

open Cmdline Driver Lib SignTool

/-! # Hexadecimal arguments

Five numbers of the two programs are `unsigned long`s on the command line, and each goes
through the signed `strtol`. -/

def pathOf (cell : Nat → Option String) : Option Path := do
  let imageFile ← cell Cmdline.SignTool.FilePath.imageFile.index
  let imageLdaddr ← cell Cmdline.SignTool.FilePath.imageLdaddr.index
  let dtbFile ← cell Cmdline.SignTool.FilePath.dtbFile.index
  let dtbLdaddr ← cell Cmdline.SignTool.FilePath.dtbLdaddr.index
  let key ← cell Cmdline.SignTool.FilePath.key.index
  let output ← cell Cmdline.SignTool.FilePath.output.index
  some { imageFile, imageLdaddr, dtbFile, dtbLdaddr, key, output }

def Reads (env : SignEnv) (argv : List String) : Prop :=
  pathOf (cmdlineParse signTool argv startCaller).caller.path.cell = some env.path

inductive Site where
  | measuredBin
  | measuredDtb
  | sentBin
  | sentDtb
  | attestedNonce

def Site.option : Site → String
  | .measuredBin | .sentBin => "-imageaddr"
  | .measuredDtb | .sentDtb => "-dtbaddr"
  | .attestedNonce => "-nonce"

def Site.Accepts (argv : List String) (pairs : List (String × String)) : Site → Prop
  | .measuredBin | .measuredDtb => signTool.Accepts argv 0 pairs
  | .sentBin | .sentDtb => host.Accepts argv 0 pairs
  | .attestedNonce => host.Accepts argv 1 pairs

/-- A run on the command line uses the value at the site: in the `user_param` that is
measured, in the one that is sent, in the monitor call of an attestation. -/
def Site.Arrives (argv : List String) (value : UInt64) : Site → Prop
  | .measuredBin => ∃ env, Reads env argv ∧ env.userParam.binLoadaddr = value
  | .measuredDtb => ∃ env, Reads env argv ∧ env.userParam.dtbLoadaddr = value
  | .sentBin => ∃ env call userParam, libCall env argv = some (some (.loadAndRun call)) ∧
      call.request = some userParam ∧ userParam.binLoadaddr = value
  | .sentDtb => ∃ env call userParam, libCall env argv = some (some (.loadAndRun call)) ∧
      call.request = some userParam ∧ userParam.dtbLoadaddr = value
  | .attestedNonce => ∃ env events, hostMain env argv = some events ∧ .sbiAttest value ∈ events

theorem path_of_reads {env : SignEnv} {argv : List String} {pairs : List (String × String)}
    (accepts : signTool.Accepts argv 0 pairs) (reads : Reads env argv) (text : String) :
    (("-imageaddr", text) ∈ pairs → env.path.imageLdaddr = text) ∧
      (("-dtbaddr", text) ∈ pairs → env.path.dtbLdaddr = text) := by
  rw [Reads, pathOf] at reads
  simp only [Option.bind_eq_bind, Option.bind_eq_some_iff, Option.some.injEq] at reads
  rcases reads with ⟨_, -, imageLdaddr, image, _, -, dtbLdaddr, dtb, _, -, _, -, read⟩
  rw [← read]
  constructor
  · intro given
    exact value_of_cell accepts rfl given image
  · intro given
    exact value_of_cell accepts rfl given dtb

theorem nonce_of_event {fd : Int} {env : IoctlEnv} {attestParamAddr nonce value : UInt64}
    (issued : .sbiAttest value ∈ (plenclaveAttest fd env attestParamAddr nonce).2) :
    value = nonce := by
  by_cases opened : 0 ≤ fd
  · by_cases complete : min env.copyIn (8 + reportLength) = 0
    · rw [plenclaveAttest_events opened env complete] at issued
      simpa using issued
    · rw [plenclaveAttest_of_incomplete opened env complete] at issued
      cases issued
  · simp only [plenclaveAttest, ioctl, if_pos (Int.not_le.mp opened)] at issued
    cases issued

/-- What arrives is the number that `strtol` makes of the text. -/
theorem arrives_eq {site : Site} {argv : List String} {pairs : List (String × String)}
    {text : String} {value : UInt64} (accepts : site.Accepts argv pairs)
    (given : (site.option, text) ∈ pairs) (arrives : site.Arrives argv value) :
    value = hexArgument text := by
  cases site with
  | measuredBin =>
      rcases arrives with ⟨env, reads, rfl⟩
      rw [← (path_of_reads accepts reads text).1 given]
      rfl
  | measuredDtb =>
      rcases arrives with ⟨env, reads, rfl⟩
      rw [← (path_of_reads accepts reads text).2 given]
      rfl
  | sentBin =>
      rcases arrives with ⟨env, call, userParam, made, request, rfl⟩
      exact (request_of_run accepts made request text).1 given
  | sentDtb =>
      rcases arrives with ⟨env, call, userParam, made, request, rfl⟩
      exact (request_of_run accepts made request text).2 given
  | attestedNonce =>
      rcases arrives with ⟨env, events, run, issued⟩
      rw [hostMain, libCall_of_attest accepts given] at run
      cases run
      exact nonce_of_event issued

/-- A number arrives unchanged at each of the five sites exactly if it fits a signed
`long`, and two nonces give one request exactly if they are equal or both lie at the end
of the range. -/
theorem hexArguments_iff {text text' : String} {v v' : UInt64}
    (written : WritesHex text.toList v.toNat) (written' : WritesHex text'.toList v'.toNat) :
    (∀ (site : Site) (argv : List String) (pairs : List (String × String)) (value : UInt64),
      site.Accepts argv pairs → (site.option, text) ∈ pairs → site.Arrives argv value →
        (value = v ↔ v.toNat < 2 ^ 63)) ∧
    ∀ (argv argv' : List String) (pairs pairs' : List (String × String)) (nonce nonce' : UInt64),
      Site.attestedNonce.Accepts argv pairs → ("-nonce", text) ∈ pairs →
      Site.attestedNonce.Accepts argv' pairs' → ("-nonce", text') ∈ pairs' →
      Site.attestedNonce.Arrives argv nonce → Site.attestedNonce.Arrives argv' nonce' →
        (nonce = nonce' ↔ v = v' ∨ (2 ^ 63 - 1 ≤ v.toNat ∧ 2 ^ 63 - 1 ≤ v'.toNat)) := by
  constructor
  · intro site argv pairs value accepts given arrives
    rw [arrives_eq accepts given arrives]
    exact ofInt_strtol16_eq_iff written
  · intro argv argv' pairs pairs' nonce nonce' accepts given accepts' given' arrives arrives'
    rw [arrives_eq accepts given arrives, arrives_eq accepts' given' arrives']
    exact ofInt_strtol16_inj written written'

/-! ## Runs that use a number -/

def hostEnv : HostEnv where
  space := threePages
  image := .mapped 3 firstImage
  dtb := .mapped 4 deviceTree
  css := .mapped 5 secondImage
  staleEnclaveFile := ⟨0, 0, 0⟩
  staleDtbFile := ⟨0, 0, 0⟩
  staleCcsFile := ⟨0, 0, 0⟩
  device := 6
  userParamAddr := 0x1000
  attestParamAddr := 0x2000
  ioctl := { failingEnv with attest := succeeded }

theorem exists_reads {argv : List String} {pairs : List (String × String)}
    (accepts : signTool.Accepts argv 0 pairs) : ∃ env, Reads env argv := by
  have cell : ∀ {index name}, Cmdline.SignTool.paramsSign[index]? = some ⟨name, .required⟩ →
      ∃ value, (cmdlineParse signTool argv startCaller).caller.path.cell index = some value :=
    fun entry => cell_of_required startCaller accepts rfl entry
  rcases @cell Cmdline.SignTool.FilePath.imageFile.index _ rfl with ⟨imageFile, imageFileCell⟩
  rcases @cell Cmdline.SignTool.FilePath.imageLdaddr.index _ rfl with ⟨imageLdaddr, imageCell⟩
  rcases @cell Cmdline.SignTool.FilePath.dtbFile.index _ rfl with ⟨dtbFile, dtbFileCell⟩
  rcases @cell Cmdline.SignTool.FilePath.dtbLdaddr.index _ rfl with ⟨dtbLdaddr, dtbCell⟩
  rcases @cell Cmdline.SignTool.FilePath.key.index _ rfl with ⟨key, keyCell⟩
  rcases @cell Cmdline.SignTool.FilePath.output.index _ rfl with ⟨output, outputCell⟩
  refine ⟨{ mappedRun firstImage "" (Bytes.ofNat 32 1) with
    path := { imageFile, imageLdaddr, dtbFile, dtbLdaddr, key, output } }, ?_⟩
  rw [Reads, pathOf, imageFileCell, imageCell, dtbFileCell, dtbCell, keyCell, outputCell]
  rfl

theorem arrives_of_accepts {site : Site} {argv : List String} {pairs : List (String × String)}
    {text : String} (accepts : site.Accepts argv pairs) (given : (site.option, text) ∈ pairs) :
    site.Arrives argv (hexArgument text) := by
  cases site with
  | measuredBin =>
      rcases exists_reads accepts with ⟨env, reads⟩
      refine ⟨env, reads, ?_⟩
      rw [← (path_of_reads accepts reads text).1 given]
      rfl
  | measuredDtb =>
      rcases exists_reads accepts with ⟨env, reads⟩
      refine ⟨env, reads, ?_⟩
      rw [← (path_of_reads accepts reads text).2 given]
      rfl
  | sentBin =>
      rcases @request_of_mapped hostEnv _ _ accepts _ _ _ _ _ _ rfl rfl rfl with
        ⟨call, userParam, made, request⟩
      exact ⟨hostEnv, call, userParam, made, request,
        (request_of_run accepts made request text).1 given⟩
  | sentDtb =>
      rcases @request_of_mapped hostEnv _ _ accepts _ _ _ _ _ _ rfl rfl rfl with
        ⟨call, userParam, made, request⟩
      exact ⟨hostEnv, call, userParam, made, request,
        (request_of_run accepts made request text).2 given⟩
  | attestedNonce =>
      refine ⟨hostEnv, _, ?_, List.mem_singleton.mpr rfl⟩
      rw [hostMain, libCall_of_attest accepts given]
      exact congrArg some (plenclaveAttest_events (by decide) _ (by decide) _ _)

/-! ## Nonces on the command line -/

def attestLine (text : String) : List String := ["host", "attest", "-nonce", text]

theorem accepts_attestLine {text : String} (plain : startsWithDash text = false) :
    Site.attestedNonce.Accepts (attestLine text) [("-nonce", text)] := by
  refine ⟨"host", "attest", Cmdline.Host.paramsAttest, rfl, rfl, ?_⟩
  constructor
  · simp [Cmdline.Host.paramsAttest]
  · simp [plain]
  · simp
  · simp [Cmdline.Host.paramsAttest]
  · simp [Cmdline.Host.paramsAttest]
  · simp

theorem arrives_attestLine {text : String} (plain : startsWithDash text = false) :
    Site.attestedNonce.Arrives (attestLine text) (hexArgument text) :=
  arrives_of_accepts (accepts_attestLine plain) (by simp [Site.option])

theorem writesHex_nonce : WritesHex "0x8000000000000000".toList (2 ^ 63) :=
  ⟨"8000000000000000".toList,
    ⟨by decide +kernel, List.all_eq_true.mp (by decide +kernel), by decide +kernel⟩,
    Or.inr (Or.inl rfl)⟩

theorem largeNonce_changed :
    ¬∀ (text : String) (v : UInt64), WritesHex text.toList v.toNat →
      ∀ (site : Site) (argv : List String) (pairs : List (String × String)) (value : UInt64),
        site.Accepts argv pairs → (site.option, text) ∈ pairs → site.Arrives argv value →
          value = v := by
  intro unchanged
  have plain : startsWithDash "0x8000000000000000" = false := by decide
  have same := unchanged "0x8000000000000000" 0x8000000000000000 writesHex_nonce
    .attestedNonce _ _ _ (accepts_attestLine plain) (by simp [Site.option])
    (arrives_attestLine plain)
  exact absurd same (by decide +kernel)

theorem hexArguments_iff_small :
    WritesHex "c0200000".toList (0xc0200000 : UInt64).toNat ∧
      ∃ value, Site.attestedNonce.Arrives (attestLine "c0200000") value ∧
        (value = 0xc0200000 ↔ (0xc0200000 : UInt64).toNat < 2 ^ 63) := by
  have written : WritesHex "c0200000".toList (0xc0200000 : UInt64).toNat :=
    writesHex_of_digits (by decide) (by decide +kernel) (by decide +kernel)
  have plain : startsWithDash "c0200000" = false := by decide
  have arrives := arrives_attestLine plain
  exact ⟨written, _, arrives, (hexArguments_iff written written).1 .attestedNonce _ _ _
    (accepts_attestLine plain) (by simp [Site.option]) arrives⟩

end Penglai.Host
