import Penglai.Foundation.Loop
import Penglai.Foundation.Options

namespace Penglai.Cmdline

/-! # `cmdline_parse`

The function stands in `sign_tool.c` and in `host.c` with the same text and its own
tables. -/

/-- The array of the caller: the cells, also those behind its end, and where stores
went. -/
structure PathArray where
  cell : Nat → Option String
  stored : List Nat

def PathArray.store (path : PathArray) (index : Nat) (value : Option String) : PathArray where
  cell := Function.update path.cell index value
  stored := path.stored ++ [index]

@[simp] theorem PathArray.store_cell (path : PathArray) (index : Nat) (value : Option String) :
    (path.store index value).cell = Function.update path.cell index value := rfl

@[simp] theorem PathArray.store_stored (path : PathArray) (index : Nat)
    (value : Option String) : (path.store index value).stored = path.stored ++ [index] := rfl

structure Caller where
  mode : Int
  path : PathArray

def startCaller : Caller := ⟨-1, ⟨fun _ => none, []⟩⟩

/-- The tables of a program: the commands `mode_m` beside their options, and the length
of the first table, which bounds every loop. -/
structure Program where
  name : String
  commandList : String
  modes : List (String × List (Param String))
  paramsCount : Nat
  commands_nodup : (modes.map Prod.fst).Nodup
  help_not_command : "-help" ∉ modes.map Prod.fst
  names_nodup : ∀ mode ∈ modes, (mode.2.map Param.name).Nodup
  tables_length : ∀ mode ∈ modes, mode.2.length = paramsCount

def startsWithDash (value : String) : Bool := value.toList.head? = some '-'

def optionErrorText (command : String) : OptionError String → String
  | .unrecognized arg => "Cannot recognize the option \"" ++ arg ++ "\".\n"
  | .badValue name => "The File name is not correct for \"" ++ name ++ "\" option.\n"
  | .repeated name => "Repeatly specified \"" ++ name ++ "\" option.\n"
  | .missing name =>
      "Option \"" ++ name ++ "\" is required for the command \"" ++ command ++ "\".\n"
  | .forbidden name =>
      "Option \"" ++ name ++ "\" is invalid for the command \"" ++ command ++ "\".\n"
  | .sameValue name other =>
      "Option \"" ++ name ++ "\" and option \"" ++ other ++ "\" are using the same file path.\n"

structure Parsed where
  ret : Bool
  printed : String
  caller : Caller

def setOutput (count : Nat) (values : List (Option String)) (path : PathArray) : PathArray :=
  forRange 0 count (fun i path => path.store i (values.getD i none)) path

def cmdlineParse (program : Program) (argv : List String) (caller : Caller) : Parsed :=
  match argv with
  | [] | [_] => ⟨false, program.name ++ ": Lack of parameters.\n", caller⟩
  | _ :: command :: args =>
      if args = [] ∧ command = "-help" then ⟨true, "", { caller with mode := -1 }⟩
      else
        let tempmode := (program.modes.map Prod.fst).idxOf command
        match program.modes[tempmode]? with
        | none =>
            ⟨false, "Cannot recognize the command \"" ++ command ++ "\".\nCommand \"" ++
              program.commandList ++ "\" is required.\n", caller⟩
        | some (_, params) =>
            match parseParams params startsWithDash args with
            | .error error => ⟨false, optionErrorText command error, caller⟩
            | .ok values =>
                ⟨true, "",
                  { mode := tempmode
                    path := setOutput program.paramsCount values caller.path }⟩

/-! ## The grammar -/

/-- A command line in the language of a program: a command, and options with values that
its table admits. -/
def Program.Accepts (program : Program) (argv : List String) (mode : Nat)
    (pairs : List (String × String)) : Prop :=
  ∃ name command params, argv = name :: command :: flatten pairs ∧
    program.modes[mode]? = some (command, params) ∧ Admitted params startsWithDash pairs

def Program.optionNames (program : Program) (mode : Nat) : List String :=
  match program.modes[mode]? with
  | none => []
  | some (_, params) => params.map Param.name

/-! ## The output loop -/

theorem setOutput_cell (values : List (Option String)) (path : PathArray) (index : Nat) :
    ∀ count, (setOutput count values path).cell index =
      if index < count then values.getD index none else path.cell index
  | 0 => rfl
  | count + 1 => by
      have induction := setOutput_cell values path index count
      rw [setOutput] at induction ⊢
      rw [forRange_succ, PathArray.store_cell, Nat.zero_add]
      by_cases last : index = count
      · subst last
        simp
      · rw [Function.update_of_ne last, induction]
        exact if_congr (by omega) rfl rfl

theorem setOutput_stored (values : List (Option String)) (path : PathArray) :
    ∀ count, (setOutput count values path).stored = path.stored ++ List.range count
  | 0 => by simp [setOutput]
  | count + 1 => by
      have induction := setOutput_stored values path count
      rw [setOutput] at induction ⊢
      rw [forRange_succ, PathArray.store_stored, induction, Nat.zero_add, List.range_succ,
        List.append_assoc]

/-! ## What the function accepts -/

section Accepts

variable {program : Program}

theorem idxOf_of_getElem? {names : List String} (nodup : names.Nodup) {index : Nat}
    {name : String} (found : names[index]? = some name) : names.idxOf name = index := by
  rcases List.getElem?_eq_some_iff.mp found with ⟨bound, rfl⟩
  exact nodup.idxOf_getElem index bound

theorem command_of_mode {mode : Nat} {command : String} {params : List (Param String)}
    (found : program.modes[mode]? = some (command, params)) :
    (program.modes.map Prod.fst)[mode]? = some command := by
  rw [List.getElem?_map, found]
  rfl

theorem command_of_idxOf {command command' : String} {params : List (Param String)}
    (found : program.modes[(program.modes.map Prod.fst).idxOf command]? =
      some (command', params)) : command' = command := by
  have here := command_of_mode found
  rcases List.getElem?_eq_some_iff.mp here with ⟨bound, equal⟩
  rw [← equal]
  exact List.getElem_idxOf bound

theorem cmdlineParse_of_accepts {argv : List String} (caller : Caller) {mode : Nat}
    {pairs : List (String × String)} (accepts : program.Accepts argv mode pairs) :
    cmdlineParse program argv caller =
      ⟨true, "",
        { mode := mode
          path := setOutput program.paramsCount (assigned (program.optionNames mode) pairs)
            caller.path }⟩ := by
  rcases accepts with ⟨name, command, params, rfl, found, admitted⟩
  have noHelp : ¬(flatten pairs = [] ∧ command = "-help") := by
    rintro ⟨-, rfl⟩
    exact program.help_not_command (List.mem_of_getElem? (command_of_mode found))
  have names : program.optionNames mode = params.map Param.name := by
    rw [Program.optionNames, found]
  have nodup := program.names_nodup _ (List.mem_of_getElem? found)
  have parsed := (parseParams_eq_ok_iff nodup _ _).mpr ⟨pairs, rfl, admitted, rfl⟩
  have index := idxOf_of_getElem? program.commands_nodup (command_of_mode found)
  rw [cmdlineParse, if_neg noHelp, names]
  simp only [index, found, parsed]

theorem cmdlineParse_of_not_accepts {argv : List String} (caller : Caller)
    (outside : ∀ mode pairs, ¬program.Accepts argv mode pairs) :
    ((cmdlineParse program argv caller).ret = false ∧
      (cmdlineParse program argv caller).caller = caller) ∨
    ((cmdlineParse program argv caller).ret = true ∧
      (cmdlineParse program argv caller).caller = { caller with mode := -1 }) := by
  rcases argv with _ | ⟨name, _ | ⟨command, args⟩⟩
  · exact Or.inl ⟨rfl, rfl⟩
  · exact Or.inl ⟨rfl, rfl⟩
  · rw [cmdlineParse]
    by_cases help : args = [] ∧ command = "-help"
    · rw [if_pos help]
      exact Or.inr ⟨rfl, rfl⟩
    · rw [if_neg help]
      left
      cases found : program.modes[(program.modes.map Prod.fst).idxOf command]? with
      | none => simp only [found, and_self]
      | some entry =>
          rcases entry with ⟨command', params⟩
          have same := command_of_idxOf found
          subst same
          cases parsed : parseParams params startsWithDash args with
          | error error => simp only [found, parsed, and_self]
          | ok values =>
              have nodup := program.names_nodup _ (List.mem_of_getElem? found)
              rcases (parseParams_eq_ok_iff nodup args values).mp parsed with
                ⟨pairs, rfl, admitted, rfl⟩
              exact absurd ⟨name, command', params, rfl, found, admitted⟩ (outside _ pairs)

end Accepts

/-! ## The language of a program -/

/-- `cmdline_parse` decides the language: it accepts for a command exactly the command
lines of the language, stores the command and for each option its value or `NULL`, and
leaves the output parameters alone when it returns false. -/
def DecidesGrammar (program : Program) : Prop :=
  ∀ (argv : List String) (caller : Caller),
    (((cmdlineParse program argv caller).ret = true ∧
        0 ≤ (cmdlineParse program argv caller).caller.mode) ↔
      ∃ mode pairs, program.Accepts argv mode pairs) ∧
    (∀ mode pairs, program.Accepts argv mode pairs →
      (cmdlineParse program argv caller).caller.mode = mode ∧
      ∀ i name, (program.optionNames mode)[i]? = some name → ∀ value,
        (cmdlineParse program argv caller).caller.path.cell i = some value ↔
          (name, value) ∈ pairs) ∧
    ((cmdlineParse program argv caller).ret = false →
      (cmdlineParse program argv caller).caller = caller)

theorem optionNames_length {program : Program} {mode : Nat} {command : String}
    {params : List (Param String)} (found : program.modes[mode]? = some (command, params)) :
    (program.optionNames mode).length = program.paramsCount := by
  rw [Program.optionNames, found]
  simpa using program.tables_length _ (List.mem_of_getElem? found)

theorem decidesGrammar (program : Program) : DecidesGrammar program := by
  intro argv caller
  by_cases inside : ∃ mode pairs, program.Accepts argv mode pairs
  · rcases inside with ⟨mode, pairs, accepts⟩
    refine ⟨?_, ?_, ?_⟩
    · rw [cmdlineParse_of_accepts caller accepts]
      exact iff_of_true ⟨rfl, Int.natCast_nonneg mode⟩ ⟨mode, pairs, accepts⟩
    · intro mode' pairs' accepts'
      rw [cmdlineParse_of_accepts caller accepts']
      refine ⟨rfl, fun i name entry value => ?_⟩
      rcases accepts' with ⟨_, command, params, -, found, admitted⟩
      rcases List.getElem?_eq_some_iff.mp entry with ⟨bound, here⟩
      rw [setOutput_cell, ← optionNames_length found, if_pos bound, ← lookup_eq_some_iff_mem
        admitted.once, assigned, List.getD_eq_getElem?_getD, List.getElem?_map, entry]
      rfl
    · rw [cmdlineParse_of_accepts caller accepts]
      intro refused
      cases refused
  · have outside : ∀ mode pairs, ¬program.Accepts argv mode pairs := fun mode pairs accepts =>
      inside ⟨mode, pairs, accepts⟩
    refine ⟨iff_of_false ?_ inside, fun mode pairs accepts => absurd accepts (outside mode pairs),
      ?_⟩
    · rintro ⟨accepted, positive⟩
      rcases cmdlineParse_of_not_accepts caller outside with ⟨refused, -⟩ | ⟨-, help⟩
      · rw [refused] at accepted
        cases accepted
      · rw [help] at positive
        have negative : (0 : Int) ≤ -1 := positive
        exact absurd negative (by decide)
    · intro refused
      rcases cmdlineParse_of_not_accepts caller outside with ⟨-, unchanged⟩ | ⟨help, -⟩
      · exact unchanged
      · rw [help] at refused
        cases refused

theorem cell_of_accepts {program : Program} {argv : List String} (caller : Caller) {mode : Nat}
    {pairs : List (String × String)} (accepts : program.Accepts argv mode pairs) {index : Nat}
    {name value : String} (option : (program.optionNames mode)[index]? = some name)
    (given : (name, value) ∈ pairs) :
    (cmdlineParse program argv caller).caller.path.cell index = some value :=
  (((decidesGrammar program argv caller).2.1 mode pairs accepts).2 index name option value).mpr
    given

theorem value_of_cell {program : Program} {argv : List String} {caller : Caller} {mode : Nat}
    {pairs : List (String × String)} (accepts : program.Accepts argv mode pairs) {index : Nat}
    {name value read : String} (option : (program.optionNames mode)[index]? = some name)
    (given : (name, value) ∈ pairs)
    (cell : (cmdlineParse program argv caller).caller.path.cell index = some read) :
    read = value := by
  rw [cell_of_accepts caller accepts option given, Option.some.injEq] at cell
  exact cell.symm

theorem cell_of_required {program : Program} {argv : List String} (caller : Caller) {mode : Nat}
    {pairs : List (String × String)} (accepts : program.Accepts argv mode pairs)
    {command : String} {params : List (Param String)}
    (found : program.modes[mode]? = some (command, params)) {index : Nat} {name : String}
    (entry : params[index]? = some ⟨name, .required⟩) :
    ∃ value, (cmdlineParse program argv caller).caller.path.cell index = some value := by
  rcases accepts with ⟨first, command', params', line, found', admitted⟩
  have same : params' = params := by
    rw [found, Option.some.injEq, Prod.mk.injEq] at found'
    exact found'.2.symm
  subst same
  have option : (program.optionNames mode)[index]? = some name := by
    rw [Program.optionNames, found, List.getElem?_map, entry]
    rfl
  have given := admitted.required _ (List.mem_of_getElem? entry) rfl
  rcases List.mem_map.mp given with ⟨⟨named, value⟩, member, same⟩
  have given : (name, value) ∈ pairs := by
    rw [← show named = name from same]
    exact member
  exact ⟨value, cell_of_accepts caller ⟨first, command', params', line, found', admitted⟩ option
    given⟩

end Penglai.Cmdline
