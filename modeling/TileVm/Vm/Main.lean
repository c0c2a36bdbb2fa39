/-
`main` of the machine: the command line, the load, the library of the first module, `tvm_run`, and
the library again. A library is opened once, before the first native call, and closed once, behind
the last.
-/
import TileVm.Image.LoadSafety
import TileVm.Vm.Linked
import TileVm.Vm.World

namespace TileVm

open Except (Mirrors)

variable {W : Type}

/-! ## The command line -/

/-- `CLR_RED`. -/
def clrRed : CStr := 27 :: cstr "[0;31m"

/-- What `cli_tvm_usage` prints. -/
def cliTvmUsage : List Byte :=
  clrRed ++ cstr "Invalid usage!" ++ clrEnd ++ cstr " can not found input file.\n" ++ cstr "    tvm <input.bin>\n"

/-- The loop of `cli_tvm_parse_command_line`: the last argument is the file name. -/
def cliTvmArguments : List CStr → Option CStr → Option CStr
  | [], fileName => fileName
  | arg :: argv, _ => cliTvmArguments argv (some arg)

/-- `cli_tvm_parse_command_line`; `none` is its result `false`. -/
def cliTvmParseCommandLine (argv : List CStr) : Option CStr :=
  if argv.length < 2 then none else cliTvmArguments argv.tail none

/-! ## `main` -/

/-- Why `main` does not return: the load, or what follows it. -/
inductive MainStop where
  | load (s : LoadStop)
  | run (s : LinkedStop)
deriving DecidableEq, Repr

/-- How a run stops, for `main`. -/
def MainStop.ofRun : Stop LinkedStop → Stop MainStop
  | .fuel => .fuel
  | .fault s => .fault (.run s)

/-- What `main` returns, what it printed, and the state it leaves the library in. -/
structure TvmExit (W : Type) where
  code : Nat
  out : List Byte
  world : W

section Main

variable (env : Env W) (pf : Platform W) (stale : Nat → Byte) (files : CStr → Option (List Byte))

/-- The library of the first module, if the program has modules. -/
def tvmMainLibrary (program : TvmProgram) (world : W) : Except TciStop (Tci × List Byte × W) :=
  if 0 < program.metadata.moduleCount then do
    let moduleName ← (named (module0 program).moduleName).mapError .fault
    let (tci, out, world) ← Tci.init.loadModule pf moduleName world
    let tci ← tci.metaprogramToFfi pf program
    return (tci, cstr "xx:" ++ moduleName ++ cstr "\n" ++ out, world)
  else return (.init, [], world)

/-- `main`. `tvm_destroy` and `tci_destroy` give the arenas and the global variables back. -/
def tvmMain (fuel : Nat) (argv : List CStr) (world : W) : Except (Stop MainStop) (TvmExit W) :=
  match cliTvmParseCommandLine argv with
  | none => .ok ⟨1, if argv.length < 2 then cliTvmUsage else [], world⟩
  | some fileName => do
    let vm ← (tvmInit env .zero world).mapError fun f => .fault (.run (.tci (.fault f)))
    let (program, _) ← (tvmLoadProgramFromFile stale vm.program (files fileName)).mapError fun s => .fault (.load s)
    let (tci, out, world) ← (tvmMainLibrary pf program vm.world).mapError fun s => .fault (.run (.tci s))
    let vm ← (tvmRunLinked env pf tci fuel { vm with program, world }).mapError MainStop.ofRun
    let world ← (tci.unloadAll pf vm.world).mapError fun s => .fault (.run (.tci s))
    return ⟨0, out ++ vm.out, world⟩

end Main

/-! ## The library of the program -/

section Serves

variable {pf : Platform W} {p : TvmProgram} {t t' : Tci} {w w' : W} {out : List Byte}

theorem loadModule_ok {name : CStr} (hcount : t.moduleCount < tciModuleCapacity)
    (h : t.loadModule pf name w = .ok (t', out, w')) :
    ∃ m, t'.last = .ok m ∧ pf.dlopen name w = (some m.handle, w') ∧ t'.moduleCount = t.moduleCount + 1 := by
  unfold Tci.loadModule at h
  split at h
  · cases h
  · rename_i lib world hopen
    obtain ⟨m, -, h⟩ := Except.bind_ok h
    cases h
    exact ⟨_, Tci.last_ok.2 ⟨Nat.succ_ne_zero _, CArray.get?_put_self _ _ hcount⟩, hopen, rfl⟩

/-- The library of a program with modules is opened and prepared. -/
theorem mainLibrary_prepared (hcount : 0 < p.metadata.moduleCount) (h : tvmMainLibrary pf p w = .ok (t, out, w')) :
    ∃ name m, (module0 p).moduleName = some name ∧ pf.dlopen name w = (some m.handle, w') ∧
      Tci.Prepared pf p (module0 p).cfunCount t m ∧ t.moduleCount = 1 := by
  unfold tvmMainLibrary at h
  rw [if_pos hcount] at h
  obtain ⟨name, hname, h⟩ := Except.bind_ok h
  obtain ⟨⟨t₁, out₁, w₁⟩, hload, h⟩ := Except.bind_ok h
  obtain ⟨t₂, hprep, h⟩ := Except.bind_ok h
  cases h
  obtain ⟨m₁, hlast, hopen, hone⟩ := loadModule_ok (by decide) hload
  obtain ⟨m, hprepared, hsame⟩ := Tci.metaprogramToFfi_prepared hlast hprep
  refine ⟨name, m, ?_, ?_, hprepared, hsame.count.trans hone⟩
  · cases hs : (module0 p).moduleName with
    | none => rw [hs] at hname; cases hname
    | some s => rw [hs] at hname; cases hname; rfl
  · rw [hsame.handle]
    exact hopen

/-- The loader leaves no native function without a module. -/
theorem load_noModules {stale : Nat → Byte} {file : Option (List Byte)} {r : ImageReader}
    (h : tvmLoadProgramFromFile stale .zero file = .ok (p, r)) (hcount : p.metadata.moduleCount = 0) :
    (module0 p).cfunCount = 0 := by
  cases file with
  | none => cases h
  | some bytes =>
    have himage := load_ok.1 h
    obtain ⟨⟨metadata, table⟩, r₁, hheader, -⟩ := Tape.bind_ok himage
    rw [loadImage_of_header stale hheader] at himage
    obtain ⟨⟨code, r₂⟩, -, hdone⟩ := Except.bind_ok himage
    cases hdone
    obtain ⟨moduleCount, r₃, -, hheader⟩ := Tape.bind_ok hheader
    obtain ⟨modules, r₄, hmodules, hheader⟩ := Tape.bind_ok hheader
    obtain ⟨constTable, r₅, -, hheader⟩ := Tape.bind_ok hheader
    cases hheader
    obtain rfl : moduleCount = 0 := hcount
    cases hmodules
    rfl

/-- The library that `main` sets up for a loaded program is the one that its native calls need. -/
theorem mainLibrary_serves {stale : Nat → Byte} {file : Option (List Byte)} {r : ImageReader}
    (hload : tvmLoadProgramFromFile stale .zero file = .ok (p, r)) (h : tvmMainLibrary pf p w = .ok (t, out, w')) :
    t.Serves pf p := by
  rcases Nat.eq_zero_or_pos p.metadata.moduleCount with hcount | hcount
  · exact .inr (load_noModules hload hcount)
  · obtain ⟨name, m, -, -, hprep, -⟩ := mainLibrary_prepared hcount h
    exact .inl ⟨m, hprep⟩

end Serves

/-- A library is opened, one of its functions is called, it is closed. -/
inductive LibraryEvent where
  | opened (lib : Addr)
  | called (fn : Addr)
  | closed (lib : Addr)
deriving DecidableEq, Repr

/-- The platform with a record of what is done with libraries. -/
def Platform.recorded (pf : Platform W) : Platform (W × List LibraryEvent) where
  dlopen name w :=
    match pf.dlopen name w.1 with
    | (some lib, world) => (some lib, world, w.2 ++ [.opened lib])
    | (none, world) => (none, world, w.2)
  dlsym := pf.dlsym
  dlclose lib w :=
    match pf.dlclose lib w.1 with
    | (true, world) => (true, world, w.2 ++ [.closed lib])
    | (false, world) => (false, world, w.2)
  ffiPrepCif := pf.ffiPrepCif
  ffiCall fn rtype args w values :=
    let r := pf.ffiCall fn rtype args w.1 values
    ⟨(r.world, w.2 ++ [.called fn]), r.values, r.out, r.ret⟩
  ffiStore := pf.ffiStore

/-- `fn` is the symbol in `lib` of a function of the program. -/
def NativeOf (pf : Platform W) (p : TvmProgram) (lib fn : Addr) : Prop :=
  ∃ id f name, id < (module0 p).cfunCount ∧ p.cfun id = .ok f ∧ f.symbolName = some name ∧ pf.dlsym lib name = some fn

/-- The life of the library of `p`. -/
inductive LibraryLife (pf : Platform W) (p : TvmProgram) : List LibraryEvent → Prop where
  /-- without modules nothing is opened, called or closed -/
  | none (h : p.metadata.moduleCount = 0) : LibraryLife pf p []
  | library {name : CStr} {lib : Addr} {calls : List Addr} (module : (module0 p).moduleName = some name)
      (opens : ∃ world, (pf.dlopen name world).1 = some lib) (calls_of : ∀ fn ∈ calls, NativeOf pf p lib fn) :
      LibraryLife pf p (.opened lib :: calls.map .called ++ [.closed lib])

section Library

variable {pf : Platform W} {p : TvmProgram} {t : Tci} {m : TciModule} {w w' : W × List LibraryEvent}

/-- A native call of the recorded platform is recorded. -/
theorem callsLibrary_recorded {lib : Addr} {id : Nat} (hlast : t.last = .ok m) (hlib : m.handle = lib)
    (h : CallsLibrary (t.nativeLib pf.recorded) p id w w') : ∃ fn, w'.2 = w.2 ++ [.called fn] ∧ NativeOf pf p lib fn := by
  obtain ⟨f, name, fn, args, values, hf, hname, -, hfn, rfl⟩ := h.called
  rw [Tci.nativeLib_dlsym hlast, hlib] at hfn
  exact ⟨fn, rfl, id, f, name, h.declared, hf, hname, hfn⟩

/-- A library that opens is recorded. -/
theorem dlopen_recorded {name : CStr} {lib : Addr} (h : pf.recorded.dlopen name w = (some lib, w')) :
    (pf.dlopen name w.1).1 = some lib ∧ w'.2 = w.2 ++ [.opened lib] := by
  simp only [Platform.recorded] at h
  split at h
  · rename_i lib' world hopen
    cases h
    rw [hopen]
    exact ⟨rfl, rfl⟩
  · cases h

/-- An instance with one module closes it. -/
theorem unloadAll_one (hlast : t.last = .ok m) (hcount : t.moduleCount = 1) (h : t.unloadAll pf.recorded w = .ok w') :
    w'.2 = w.2 ++ [.closed m.handle] := by
  obtain ⟨-, hget⟩ := Tci.last_ok.1 hlast
  rw [hcount] at hget
  unfold Tci.unloadAll at h
  rw [hcount] at h
  unfold Tci.unloadFrom at h
  rw [Except.bind_of_ok (CArray.load_ok.2 hget)] at h
  simp only [Platform.recorded] at h
  cases hclose : pf.dlclose m.handle w.1 with
  | mk done world =>
    rw [hclose] at h
    cases done with
    | false => cases h
    | true => cases h; rfl

theorem tvmInit_fields {env : Env W} {world : W} {vm : Vm W} (h : tvmInit env p world = .ok vm) :
    vm.program = p ∧ vm.world = world := by
  unfold tvmInit at h
  obtain ⟨⟨frame, frames⟩, -, h⟩ := Except.bind_ok h
  cases h
  exact ⟨rfl, rfl⟩

/-- Without modules nothing is done with libraries. -/
theorem main_noModules {stale : Nat → Byte} {file : Option (List Byte)} {r : ImageReader} {out : List Byte}
    {env : Env (W × List LibraryEvent)} {vm vm' : Vm (W × List LibraryEvent)} {fuel : Nat} {w'' : W × List LibraryEvent}
    (hload : tvmLoadProgramFromFile stale .zero file = .ok (p, r)) (hcount : p.metadata.moduleCount = 0)
    (hlibrary : tvmMainLibrary pf.recorded p w = .ok (t, out, w')) (hvm : vm = { vm with program := p, world := w' })
    (hrun : tvmRunLinked env pf.recorded t fuel vm = .ok vm') (hunload : t.unloadAll pf.recorded vm'.world = .ok w'') :
    w'' = w := by
  have hnone := load_noModules hload hcount
  unfold tvmMainLibrary at hlibrary
  rw [if_neg (by omega)] at hlibrary
  cases hlibrary
  cases hunload
  have hprogram : vm.program = p := by rw [hvm]
  have hworld : vm.world = w := by rw [hvm]
  refine tvmRun_world (· = w) (fun id w w' _ hcall => ?_) hprogram hworld
    (((run_linked env (.inr hnone) hprogram fuel).ok_iff vm').1 hrun)
  have hdeclared := hcall.declared
  omega

/-- What `tvm_run` does with the library of `t`. -/
theorem run_calls {env : Env (W × List LibraryEvent)} {vm vm' : Vm (W × List LibraryEvent)} {fuel : Nat}
    {log : List LibraryEvent} (hprep : Tci.Prepared pf.recorded p (module0 p).cfunCount t m) (hvm : vm.program = p)
    (hlog : vm.world.2 = log) (h : tvmRunLinked env pf.recorded t fuel vm = .ok vm') :
    ∃ calls : List Addr, vm'.world.2 = log ++ calls.map .called ∧ ∀ fn ∈ calls, NativeOf pf p m.handle fn := by
  have hrun := ((run_linked env (.inl ⟨m, hprep⟩) hvm fuel).ok_iff vm').1 h
  refine tvmRun_world (fun w => ∃ calls : List Addr, w.2 = log ++ calls.map .called ∧ ∀ fn ∈ calls, NativeOf pf p m.handle fn) ?_ hvm
    ⟨[], by simpa using hlog, by simp⟩ hrun
  rintro id w w' ⟨calls, hw, hcalls⟩ hcall
  obtain ⟨fn, hw', hfn⟩ := callsLibrary_recorded hprep.last rfl hcall
  refine ⟨calls ++ [fn], by simp [hw', hw], fun g hg => ?_⟩
  rcases List.mem_append.1 hg with hg | hg
  · exact hcalls g hg
  · rw [List.mem_singleton.1 hg]
    exact hfn

end Library

/-! ## A whole run -/

/-- For every run of `main` that comes to its end, whatever the file and the platform: nothing was opened, or the library of
the first module was opened once, before every native call, and closed once, behind them all; and every native call was of a
function that the program declares, at the address of its symbol in that library. -/
theorem tvmMain_library (pf : Platform W) (env : Env (W × List LibraryEvent)) (stale : Nat → Byte)
    (files : CStr → Option (List Byte)) (fuel : Nat) (argv : List CStr) (world : W) (e : TvmExit (W × List LibraryEvent))
    (h : tvmMain env pf.recorded stale files fuel argv (world, []) = .ok e) :
    (cliTvmParseCommandLine argv = none ∧ e.world = (world, [])) ∨ ∃ fileName p r,
      cliTvmParseCommandLine argv = some fileName ∧
      tvmLoadProgramFromFile stale .zero (files fileName) = .ok (p, r) ∧ LibraryLife pf p e.world.2 := by
  unfold tvmMain at h
  cases hcli : cliTvmParseCommandLine argv with
  | none =>
    rw [hcli] at h
    cases h
    exact .inl ⟨rfl, rfl⟩
  | some fileName =>
    rw [hcli] at h
    obtain ⟨vm, hinit, h⟩ := Except.bind_ok h
    obtain ⟨⟨p, r⟩, hload, h⟩ := Except.bind_ok h
    obtain ⟨⟨t, out, w⟩, hlibrary, h⟩ := Except.bind_ok h
    obtain ⟨vm', hrun, h⟩ := Except.bind_ok h
    obtain ⟨w', hunload, h⟩ := Except.bind_ok h
    cases h
    have hinit := Except.mapError_eq_ok.1 hinit
    have hload := Except.mapError_eq_ok.1 hload
    have hlibrary := Except.mapError_eq_ok.1 hlibrary
    have hrun := Except.mapError_eq_ok.1 hrun
    have hunload := Except.mapError_eq_ok.1 hunload
    obtain ⟨hprogram, hworld⟩ := tvmInit_fields hinit
    rw [hprogram] at hload
    rw [hworld] at hlibrary
    refine .inr ⟨fileName, p, r, rfl, hload, ?_⟩
    rcases Nat.eq_zero_or_pos p.metadata.moduleCount with hcount | hcount
    · rw [main_noModules hload hcount hlibrary rfl hrun hunload]
      exact .none hcount
    · obtain ⟨name, m, hname, hopen, hprep, hone⟩ := mainLibrary_prepared hcount hlibrary
      obtain ⟨hopen, hlog⟩ := dlopen_recorded hopen
      obtain ⟨calls, hcalled, hcalls⟩ := run_calls hprep rfl hlog hrun
      have hclosed := unloadAll_one hprep.last hone hunload
      rw [hclosed, hcalled]
      exact .library hname ⟨world, hopen⟩ hcalls

/-! ## A clock -/

/-- The bare host, whose library keeps a record. -/
def Env.recording (pool : List Addr) : Env (Unit × List LibraryEvent) where
  f32 := (Env.bare pool).f32
  heap := (Env.bare pool).heap
  frames := .firstFit pool
  constBase := 0
  native := { isOk _ := none, dlsym _ := none, ffiCall _ _ _ w vs := ⟨w, vs, [], 0⟩, ffiStore := CType.widened }

/-- A platform with one library, at 1, with one function, at 4096, that returns 7. -/
def Platform.clock : Platform Unit where
  dlopen name w := (if name = cstr "m" then some 1 else none, w)
  dlsym _ name := if name = cstr "now" then some 4096 else none
  dlclose _ w := (true, w)
  ffiPrepCif _ _ := true
  ffiCall _ _ _ w values := ⟨w, values, [], 7⟩
  ffiStore := CType.widened

/-- A program of `native 0` and `hlt`, whose module `m` has the function `now`. -/
def clockFile : List Byte :=
  [1, 0, 0, 0, 1] ++ cstr "m" ++ [1, 0, 0, 0, 3] ++ cstr "now" ++ [0, 0, CType.uint32.code] ++ List.replicate 16 0 ++
    Opcode.bytes ⟨0, 0⟩ ⟨OpType.native.code, .zero⟩ ++ Opcode.bytes ⟨0, 0⟩ ⟨OpType.halt.code, .zero⟩

/-- `main` on it. -/
def clockMain : Except (Stop MainStop) (TvmExit (Unit × List LibraryEvent)) :=
  tvmMain (.recording [64]) Platform.clock.recorded (fun _ => 0) (fun _ => some clockFile) 5 [cstr "tvm", cstr "f"] ((), [])

theorem tvmMain_library_clock : ∃ e, clockMain = .ok e ∧ e.world.2 = [.opened 1, .called 4096, .closed 1] ∧
    ((cliTvmParseCommandLine [cstr "tvm", cstr "f"] = none ∧ e.world = ((), [])) ∨ ∃ fileName p r,
      cliTvmParseCommandLine [cstr "tvm", cstr "f"] = some fileName ∧
      tvmLoadProgramFromFile (fun _ => 0) .zero (some clockFile) = .ok (p, r) ∧ LibraryLife Platform.clock p e.world.2) := by
  have hrun : clockMain.okAnd (fun e => e.world.2 == [.opened 1, .called 4096, .closed 1]) = true := by decide +kernel
  obtain ⟨e, he, hlog⟩ := Except.okAnd_eq_true hrun
  exact ⟨e, he, eq_of_beq hlog, tvmMain_library Platform.clock (.recording [64]) (fun _ => 0) (fun _ => some clockFile) 5 _ () e he⟩

end TileVm
