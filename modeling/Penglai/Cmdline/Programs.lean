import Penglai.Cmdline.Parse

namespace Penglai.Cmdline

/-! # The two programs

The tables of `sign_tool.c` and `host.c`, in the order of `file_path_t`. -/

/-! ## `penglai_sign` -/

namespace SignTool

def paramsSign : List (Param String) :=
  [⟨"-image", .required⟩, ⟨"-imageaddr", .required⟩, ⟨"-dtb", .required⟩,
    ⟨"-dtbaddr", .required⟩, ⟨"-key", .required⟩, ⟨"-out", .required⟩, ⟨"-sig", .invalid⟩,
    ⟨"-unsigned", .invalid⟩, ⟨"-ccsfile", .invalid⟩, ⟨"-dumpfile", .optional⟩]

def paramsGendata : List (Param String) :=
  [⟨"-image", .required⟩, ⟨"-imageaddr", .required⟩, ⟨"-dtb", .required⟩,
    ⟨"-dtbaddr", .required⟩, ⟨"-key", .invalid⟩, ⟨"-out", .required⟩, ⟨"-sig", .invalid⟩,
    ⟨"-unsigned", .invalid⟩, ⟨"-ccsfile", .invalid⟩, ⟨"-dumpfile", .invalid⟩]

def paramsCatsig : List (Param String) :=
  [⟨"-image", .required⟩, ⟨"-imageaddr", .required⟩, ⟨"-dtb", .required⟩,
    ⟨"-dtbaddr", .required⟩, ⟨"-key", .required⟩, ⟨"-out", .required⟩, ⟨"-sig", .required⟩,
    ⟨"-unsigned", .required⟩, ⟨"-ccsfile", .invalid⟩, ⟨"-dumpfile", .optional⟩]

def paramsDump : List (Param String) :=
  [⟨"-image", .invalid⟩, ⟨"-imageaddr", .invalid⟩, ⟨"-dtb", .invalid⟩,
    ⟨"-dtbaddr", .invalid⟩, ⟨"-key", .invalid⟩, ⟨"-out", .invalid⟩, ⟨"-sig", .invalid⟩,
    ⟨"-unsigned", .invalid⟩, ⟨"-ccsfile", .required⟩, ⟨"-dumpfile", .required⟩]

inductive FilePath where
  | imageFile
  | imageLdaddr
  | dtbFile
  | dtbLdaddr
  | key
  | output
  | sig
  | unsigned
  | ccsFile
  | dumpFile
  deriving DecidableEq

def FilePath.index : FilePath → Nat
  | .imageFile => 0
  | .imageLdaddr => 1
  | .dtbFile => 2
  | .dtbLdaddr => 3
  | .key => 4
  | .output => 5
  | .sig => 6
  | .unsigned => 7
  | .ccsFile => 8
  | .dumpFile => 9

end SignTool

def signTool : Program where
  name := "SIGN_TOOL"
  commandList := "sign/gendata/catsig"
  modes :=
    [("sign", SignTool.paramsSign), ("gendata", SignTool.paramsGendata),
      ("catsig", SignTool.paramsCatsig), ("dump", SignTool.paramsDump)]
  paramsCount := SignTool.paramsSign.length
  commands_nodup := by decide
  help_not_command := by decide
  names_nodup := by decide
  tables_length := by decide

/-! ## `host` -/

namespace Host

def paramsRun : List (Param String) :=
  [⟨"-image", .required⟩, ⟨"-imageaddr", .required⟩, ⟨"-dtb", .required⟩,
    ⟨"-dtbaddr", .required⟩, ⟨"-cssfile", .required⟩, ⟨"-nonce", .invalid⟩]

def paramsAttest : List (Param String) :=
  [⟨"-image", .invalid⟩, ⟨"-imageaddr", .invalid⟩, ⟨"-dtb", .invalid⟩,
    ⟨"-dtbaddr", .invalid⟩, ⟨"-cssfile", .invalid⟩, ⟨"-nonce", .required⟩]

inductive FilePath where
  | imageFile
  | imageLdaddr
  | dtbFile
  | dtbLdaddr
  | ccsFile
  | nonce
  deriving DecidableEq

def FilePath.index : FilePath → Nat
  | .imageFile => 0
  | .imageLdaddr => 1
  | .dtbFile => 2
  | .dtbLdaddr => 3
  | .ccsFile => 4
  | .nonce => 5

end Host

def host : Program where
  name := "REE_HOST"
  commandList := "run/attest"
  modes := [("run", Host.paramsRun), ("attest", Host.paramsAttest)]
  paramsCount := Host.paramsRun.length
  commands_nodup := by decide
  help_not_command := by decide
  names_nodup := by decide
  tables_length := by decide

/-- In both programs `cmdline_parse` decides the language of the tables. -/
theorem cmdlineParse_decidesGrammar : DecidesGrammar signTool ∧ DecidesGrammar host :=
  ⟨decidesGrammar signTool, decidesGrammar host⟩

example : (cmdlineParse host ["host", "attest", "-nonce", "-5"] ⟨-1, ⟨fun _ => none, []⟩⟩).printed =
    "The File name is not correct for \"-nonce\" option.\n" := by decide +kernel

end Penglai.Cmdline
