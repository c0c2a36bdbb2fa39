/-
The command line of the assembler: the options in any order, each `-l` with the name of a library
behind it. The names are kept as they are given, whatever their length.
-/
import TileVm.Image.Generate

namespace TileVm

/-- `cli_parsed_args_t`, with the library names in `libs`. -/
structure CliTasmArgs where
  fileName : Option CStr
  outputName : Option CStr
  libs : CliParsedArgs
  astShow : Bool
  compile : Bool

/-- `args` as `main` of the assembler sets it up. -/
def CliTasmArgs.init : CliTasmArgs := ⟨none, none, ⟨[], Nat.zero_le _⟩, false, false⟩

/-- `clib_names[clib_count++] = name`. -/
def CliParsedArgs.push (args : CliParsedArgs) (name : CStr) : Except Fault CliParsedArgs :=
  if h : args.clibNames.length < maxLibCount then
    .ok ⟨args.clibNames ++ [name], by
      rw [List.length_append, List.length_singleton]
      exact h⟩
  else .error .badAddress

/-- The loop of `cli_tasm_parse_command_line`. At the end of the arguments `cli_shift` prints a text that it was not
given. -/
def cliTasmOptions : List CStr → CliTasmArgs → Except Fault CliTasmArgs
  | [], args => .ok args
  | arg :: argv, args =>
    if arg = cstr "-o" then
      match argv with
      | [] => .error .uninitialized
      | name :: argv => cliTasmOptions argv { args with outputName := some name }
    else if arg = cstr "-c" then cliTasmOptions argv { args with compile := true }
    else if arg = cstr "-l" then
      match argv with
      | [] => .error .uninitialized
      | name :: argv => do
        let libs ← args.libs.push name
        cliTasmOptions argv { args with libs }
    else if arg = cstr "-ast" then cliTasmOptions argv { args with astShow := true }
    else cliTasmOptions argv { args with fileName := some arg }

/-- `cli_tasm_parse_command_line`; `none` is its result `false`. -/
def cliTasmParseCommandLine (argv : List CStr) : Except Fault (Option CliTasmArgs) :=
  if argv.length < 2 then .ok none
  else do
    let args ← cliTasmOptions argv.tail .init
    if args.fileName.isNone then return none
    else return some { args with outputName := some (args.outputName.getD (cstr "out.bin")) }

/-! ## The names -/

theorem CliParsedArgs.push_ok {args args' : CliParsedArgs} {name : CStr} (h : args.push name = .ok args') :
    args'.clibNames = args.clibNames ++ [name] := by
  unfold push at h
  split at h
  · cases h
    rfl
  · cases h

theorem cliTasmOptions_names {argv : List CStr} {args args' : CliTasmArgs} (h : cliTasmOptions argv args = .ok args') :
    ∃ names, args'.libs.clibNames = args.libs.clibNames ++ names ∧ names.Sublist argv := by
  fun_induction cliTasmOptions argv args with
  | case1 args =>
    cases h
    exact ⟨[], (List.append_nil _).symm, .slnil⟩
  | case2 => cases h
  | case3 args name argv ih =>
    obtain ⟨names, hnames, hsub⟩ := ih h
    exact ⟨names, hnames, (hsub.cons name).cons _⟩
  | case4 args argv _ ih =>
    obtain ⟨names, hnames, hsub⟩ := ih h
    exact ⟨names, hnames, hsub.cons _⟩
  | case5 => cases h
  | case6 args name argv _ _ ih =>
    obtain ⟨libs, hpush, h⟩ := Except.bind_ok h
    obtain ⟨names, hnames, hsub⟩ := ih libs h
    refine ⟨name :: names, ?_, (hsub.cons_cons name).cons _⟩
    rw [hnames, CliParsedArgs.push_ok hpush, List.append_assoc]
    rfl
  | case7 args argv _ _ _ ih =>
    obtain ⟨names, hnames, hsub⟩ := ih h
    exact ⟨names, hnames, hsub.cons _⟩
  | case8 args arg argv _ _ _ _ ih =>
    obtain ⟨names, hnames, hsub⟩ := ih h
    exact ⟨names, hnames, hsub.cons _⟩

/-- The library names are arguments, in their order. -/
theorem cliTasmParse_names {argv : List CStr} {args : CliTasmArgs} (h : cliTasmParseCommandLine argv = .ok (some args)) :
    args.libs.clibNames.Sublist argv := by
  unfold cliTasmParseCommandLine at h
  split at h
  · cases h
  · obtain ⟨args', hoptions, h⟩ := Except.bind_ok h
    obtain ⟨names, hnames, hsub⟩ := cliTasmOptions_names hoptions
    split at h
    · cases h
    · cases h
      show args'.libs.clibNames.Sublist argv
      rw [hnames]
      exact hsub.trans (List.tail_sublist argv)

end TileVm
