import Penglai.Cmdline.Programs

namespace Penglai.Cmdline

/-! # The array behind the tables

Three declarations have to agree: the length of `path`, the enumeration that indexes it
and the tables whose length bounds the output loop. -/

/-- `const char *path[8]`, in both programs. -/
def pathLength : Nat := 8

/-- The loads from `path` behind an accepted command line, in the order of the text: in
`SIGN` mode those of `main`, with those of `load_secure_linux` after the first message. -/
def SignTool.loads (mode : Int) : List SignTool.FilePath :=
  if mode = 0 then
    [.imageFile, .dtbFile, .key, .output, .dumpFile, .imageFile, .imageLdaddr, .dtbFile,
      .dtbLdaddr, .key, .output]
  else []

def Host.loads (mode : Int) : List Host.FilePath :=
  if mode = 0 then
    [.imageFile, .imageLdaddr, .dtbFile, .dtbLdaddr, .imageFile, .imageLdaddr, .dtbFile,
      .dtbLdaddr, .ccsFile]
  else if mode = 1 then [.nonce, .nonce]
  else []

/-- Stores and loads stay in the array, when `main` starts with `mode` -1 and any cells. -/
def InBounds (program : Program) (loads : Int → List Nat) (argv : List String) : Prop :=
  ∀ cell, let parsed := cmdlineParse program argv ⟨-1, ⟨cell, []⟩⟩
    (∀ index ∈ parsed.caller.path.stored, index < pathLength) ∧
    (parsed.ret = true → ∀ index ∈ loads parsed.caller.mode, index < pathLength)

def SignTool.InBounds (argv : List String) : Prop :=
  Cmdline.InBounds signTool (fun mode => (SignTool.loads mode).map SignTool.FilePath.index) argv

def Host.InBounds (argv : List String) : Prop :=
  Cmdline.InBounds host (fun mode => (Host.loads mode).map Host.FilePath.index) argv

section Stores

variable {program : Program} {argv : List String}

theorem stored_of_accepts (caller : Caller) {mode : Nat} {pairs : List (String × String)}
    (accepts : program.Accepts argv mode pairs) :
    (cmdlineParse program argv caller).caller.path.stored =
      caller.path.stored ++ List.range program.paramsCount := by
  rw [cmdlineParse_of_accepts caller accepts]
  exact setOutput_stored _ _ _

theorem inBounds_of_not_accepts {loads : Int → List Nat} (none : loads (-1) = [])
    (outside : ∀ mode pairs, ¬program.Accepts argv mode pairs) :
    InBounds program loads argv := by
  intro cell
  rcases cmdlineParse_of_not_accepts ⟨-1, ⟨cell, []⟩⟩ outside with
    ⟨refused, unchanged⟩ | ⟨help, changed⟩
  · simp [refused, unchanged]
  · simp [changed, none]

end Stores

theorem host_inBounds (argv : List String) : Host.InBounds argv := by
  by_cases inside : ∃ mode pairs, host.Accepts argv mode pairs
  · rcases inside with ⟨mode, pairs, accepts⟩
    intro cell
    constructor
    · have few : ∀ index ∈ List.range host.paramsCount, index < pathLength := by decide
      rw [stored_of_accepts _ accepts]
      exact few
    · intro _
      have loads (mode : Int) : ∀ index ∈ (Host.loads mode).map Host.FilePath.index,
          index < pathLength := by
        rw [Host.loads]
        split
        · decide
        · split
          · decide
          · simp
      exact loads _
  · exact inBounds_of_not_accepts rfl fun mode pairs accepts => inside ⟨mode, pairs, accepts⟩

/-- `penglai_sign` stays in its array exactly on the command lines that are refused or ask
for help; the host tool always does. -/
theorem signTool_inBounds_iff (argv : List String) :
    (SignTool.InBounds argv ↔ ¬∃ mode pairs, signTool.Accepts argv mode pairs) ∧
      Host.InBounds argv := by
  refine ⟨⟨?_, ?_⟩, host_inBounds argv⟩
  · rintro inBounds ⟨mode, pairs, accepts⟩
    have stores := (inBounds fun _ => none).1
    rw [stored_of_accepts _ accepts] at stores
    exact absurd (stores 8 (by decide)) (by decide)
  · intro outside
    exact inBounds_of_not_accepts rfl fun mode pairs accepts => outside ⟨mode, pairs, accepts⟩

def signCommandLine : List String :=
  ["../penglai_sign", "sign", "-image", "sec-image", "-imageaddr", "0xc0200000",
    "-dtb", "sec-dtb.dtb", "-dtbaddr", "0x186000000", "-key", "SM2PrivateKey.pem",
    "-out", "ccs-file"]

theorem signCommandLine_outOfBounds : ¬∀ argv, SignTool.InBounds argv := by
  intro inBounds
  have stores := (inBounds signCommandLine fun _ => none).1
  exact absurd (stores 8 (by decide +kernel)) (by decide)

end Penglai.Cmdline
