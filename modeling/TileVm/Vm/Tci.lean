/-
The native library (`tci.c`): a module is opened with `dlopen`, its functions are prepared by libffi
from the metadata of the program, and a call looks its symbol up in the last module. What the machine
assumes of a library is what this gives it.
-/
import TileVm.Vm.NativeAccess

namespace TileVm

def tciModuleCapacity : Nat := 32

/-! ## The platform -/

/-- What `tci.c` calls of `dlfcn.h` and of libffi. Opening and closing a library run code of the library. -/
structure Platform (W : Type) where
  dlopen : CStr → W → Option Addr × W
  dlsym : Addr → CStr → Option Addr
  dlclose : Addr → W → Bool × W
  ffiPrepCif : CType → List CType → Bool
  ffiCall : Addr → Byte → List (Byte × BitVec 64) → W → List Region → NativeResult W
  ffiStore : CType → BitVec 64 → BitVec 64 → BitVec 64

/-- Why a function of `tci.c` does not return: `exit(1)`, or a fault. -/
inductive TciStop where
  | exit
  | fault (e : Fault)
deriving DecidableEq, Repr

/-! ## State -/

/-- `tci_native_func_t`; `rtype` and `atypes` are what its `cif` was prepared with. -/
structure TciNativeFunc where
  rtype : Byte
  atypes : List Byte
  isOk : Bool
deriving DecidableEq, Repr

def TciNativeFunc.zero : TciNativeFunc := ⟨0, [], false⟩

/-- `tci_module_t`; `nativeFuncs` are the `native_func_count` entries behind the pointer. -/
structure TciModule where
  handle : Addr
  name : CStr
  nativeFuncs : List TciNativeFunc
deriving DecidableEq, Repr

def TciModule.zero : TciModule := ⟨0, [], []⟩

/-- `tci_t`. Its arena is taken to return enough storage. -/
structure Tci where
  modules : CArray TciModule tciModuleCapacity
  moduleCount : Nat

namespace Tci

/-- `tci_init`. -/
def init : Tci := ⟨.fill TciModule.zero, 0⟩

/-- `instance->modules[instance->module_count - 1]`; the index of an instance without modules is `SIZE_MAX`. -/
def last (t : Tci) : Except TciStop TciModule :=
  if t.moduleCount = 0 then .error (.fault (.outOfBounds .modules))
  else t.modules.load (.fault (.outOfBounds .modules)) (t.moduleCount - 1)

/-- A store to a field of that module. -/
def putLast (t : Tci) (m : TciModule) : Tci := { t with modules := t.modules.put (t.moduleCount - 1) m }

variable {W : Type} (pf : Platform W)

/-- `CLR_WHITE` and `CLR_GREEN`. -/
def clrWhite : CStr := 27 :: cstr "[0;37m"
def clrGreen : CStr := 27 :: cstr "[0;32m"

/-- `tci_load_module`. It returns what was printed, too. -/
def loadModule (t : Tci) (moduleName : CStr) (world : W) : Except TciStop (Tci × List Byte × W) :=
  match pf.dlopen moduleName world with
  | (none, _) => .error .exit
  | (some lib, world) => do
    let m ← t.modules.load (.fault (.outOfBounds .modules)) t.moduleCount
    let modules := t.modules.put t.moduleCount { m with handle := lib, name := moduleName }
    let out := clrWhite ++ cstr "Runtime library loaded " ++ clrGreen ++ cstr "successfully. " ++ clrEnd ++ moduleName ++
      cstr "\n"
    return (⟨modules, t.moduleCount + 1⟩, out, world)

/-- `tci_ctype_to_ffi_type`; what it returns for another byte is not determined. -/
def ctypeToFfiType (ctype : Byte) : Except TciStop CType :=
  match CType.ofNat? ctype.toNat with
  | some t => .ok t
  | none => .error (.fault .uninitialized)

/-- `tci_prepare_last_module`. -/
def prepareLastModule (t : Tci) (nativeFuncCount : Nat) : Except TciStop Tci := do
  let m ← t.last
  return t.putLast { m with nativeFuncs := List.replicate nativeFuncCount .zero }

/-- The loop of `tci_prepare_function`: the types of the first `acount` arguments. -/
def argTypes : Nat → List Byte → Except TciStop (List CType)
  | 0, _ => .ok []
  | _ + 1, [] => .error (.fault (.outOfBounds .atypes))
  | acount + 1, atype :: atypes => do
    let arg ← ctypeToFfiType atype
    let args ← argTypes acount atypes
    return arg :: args

/-- `tci_prepare_function`: the function that it leaves behind its pointer. -/
def prepareFunction (rtype : Byte) (atypes : List Byte) (acount : Nat) : Except TciStop TciNativeFunc := do
  let ret ← ctypeToFfiType rtype
  let args ← argTypes acount atypes
  return ⟨rtype, atypes.take acount, pf.ffiPrepCif ret args⟩

/-- The loop of `tci_metaprogram_to_ffi` from `i` on, with `n` turns to go. -/
def prepareFunctions (p : TvmProgram) : Nat → Nat → Tci → Except TciStop Tci
  | _, 0, t => .ok t
  | i, n + 1, t =>
    match p.cfun i with
    | .error e => .error (.fault e)
    | .ok cfun => do
      let m ← t.last
      let func ← prepareFunction pf cfun.rtype cfun.atypes cfun.acount
      prepareFunctions p (i + 1) n (t.putLast { m with nativeFuncs := m.nativeFuncs.set i func })

/-- `tci_metaprogram_to_ffi`. -/
def metaprogramToFfi (t : Tci) (p : TvmProgram) : Except TciStop Tci := do
  let cfunCount := (module0 p).cfunCount
  let t ← t.prepareLastModule cfunCount
  prepareFunctions pf p 0 cfunCount t

/-- The loop of `tci_unload_all` from `i` on, with `n` turns to go. -/
def unloadFrom (t : Tci) : Nat → Nat → W → Except TciStop W
  | _, 0, world => .ok world
  | i, n + 1, world => do
    let m ← t.modules.load (.fault (.outOfBounds .modules)) i
    match pf.dlclose m.handle world with
    | (false, _) => .error .exit
    | (true, world) => unloadFrom t (i + 1) n world

/-- `tci_unload_all`. -/
def unloadAll (t : Tci) (world : W) : Except TciStop W := unloadFrom pf t 0 t.moduleCount world

/-- `tci_get_cfunction`: all modules are unloaded when there is no such symbol. -/
def getCfunction (t : Tci) (funcName : CStr) (world : W) : Except TciStop (Option Addr × W) := do
  let m ← t.last
  match pf.dlsym m.handle funcName with
  | some func => return (some func, world)
  | none => do
    let world ← t.unloadAll pf world
    return (none, world)

/-- `ffi_call`: the arguments are read at the widths of the `cif`, and the result is stored as libffi stores its type. -/
def ffiCall (func : TciNativeFunc) (fn : Option Addr) (vm : Vm W) (rvalue : Option (BitVec 64))
    (avalues : List (BitVec 64)) : Except Fault (Vm W × BitVec 64) :=
  match fn with
  | none => .error .nullPointer
  | some fn => do
    let args ← readArgs func.atypes avalues
    let r := pf.ffiCall fn func.rtype args vm.world vm.heap.values
    let vm := { vm with world := r.world, heap := { vm.heap with values := r.values }, out := vm.out ++ r.out }
    match rvalue with
    | none => return (vm, 0)
    | some ret => do
      let ret ← storeRet pf.ffiStore func.rtype ret r.ret
      return (vm, ret)

/-- `tci_native_call`. -/
def nativeCall (t : Tci) (vm : Vm W) (id : Nat) (rvalue : Option (BitVec 64)) (avalues : List (BitVec 64)) :
    Except TciStop (Vm W × BitVec 64) := do
  let f ← (vm.program.cfun id).mapError .fault
  let procName ← (named f.symbolName).mapError .fault
  let vm := { vm with
    out := vm.out ++ (cstr "id: " ++ decimal id ++ cstr "\n" ++ clrBlue ++ procName ++ cstr "\n" ++ clrEnd) }
  let m ← t.last
  match m.nativeFuncs[id]? with
  | none => .error (.fault (.outOfBounds .cfuns))
  | some func =>
    if func.isOk then do
      let (fn, world) ← t.getCfunction pf procName vm.world
      (ffiCall pf func fn { vm with world } rvalue avalues).mapError .fault
    else return (vm, rvalue.getD 0)

/-- The library as the machine sees it. -/
def nativeLib (t : Tci) : NativeLib W where
  isOk id :=
    match t.last with
    | .ok m => m.nativeFuncs[id]?.map (·.isOk)
    | .error _ => none
  dlsym name :=
    match t.last with
    | .ok m => pf.dlsym m.handle name
    | .error _ => none
  ffiCall := pf.ffiCall
  ffiStore := pf.ffiStore

/-! ## The last module -/

section Last

variable {pf} {t t' : Tci} {m m' : TciModule} {p : TvmProgram}

theorem last_ok : t.last = .ok m ↔ t.moduleCount ≠ 0 ∧ t.modules.get? (t.moduleCount - 1) = some m := by
  unfold last
  split
  · rename_i h
    simp [h]
  · rename_i h
    simp [h, CArray.load_ok]

@[simp] theorem putLast_moduleCount (t : Tci) (m : TciModule) : (t.putLast m).moduleCount = t.moduleCount := rfl

theorem last_putLast (h : t.last = .ok m) (m' : TciModule) : (t.putLast m').last = .ok m' := by
  obtain ⟨hcount, hget⟩ := last_ok.1 h
  refine last_ok.2 ⟨hcount, ?_⟩
  exact CArray.get?_put_self t.modules m' (CArray.get?_lt hget)

/-! ## Preparation -/

/-- The functions of the last module are those of the first module of the program; the first `n` of them are prepared. -/
structure Prepared (pf : Platform W) (p : TvmProgram) (n : Nat) (t : Tci) (m : TciModule) : Prop where
  last : t.last = .ok m
  length : m.nativeFuncs.length = (module0 p).cfunCount
  entry : ∀ id < n, ∃ f func, p.cfun id = .ok f ∧ prepareFunction pf f.rtype f.atypes f.acount = .ok func ∧
    m.nativeFuncs[id]? = some func

/-- What the preparation of the functions leaves of a module. -/
structure SameLibrary (t t' : Tci) (m m' : TciModule) : Prop where
  count : t'.moduleCount = t.moduleCount
  handle : m'.handle = m.handle
  name : m'.name = m.name

theorem prepareFunctions_prepared {i n : Nat} (hle : i + n ≤ (module0 p).cfunCount) (hprep : Prepared pf p i t m)
    (h : prepareFunctions pf p i n t = .ok t') : ∃ m', Prepared pf p (i + n) t' m' ∧ SameLibrary t t' m m' := by
  induction n generalizing i t m with
  | zero =>
    cases h
    exact ⟨m, hprep, rfl, rfl, rfl⟩
  | succ n ih =>
    rw [prepareFunctions] at h
    cases hf : p.cfun i with
    | error e => rw [hf] at h; cases h
    | ok f =>
      rw [hf] at h
      dsimp only at h
      rw [Except.bind_of_ok hprep.last] at h
      obtain ⟨func, hfunc, h⟩ := Except.bind_ok h
      have hnext : Prepared pf p (i + 1) (t.putLast { m with nativeFuncs := m.nativeFuncs.set i func })
          { m with nativeFuncs := m.nativeFuncs.set i func } := by
        refine ⟨last_putLast hprep.last _, ?_, fun id hid => ?_⟩
        · rw [List.length_set]
          exact hprep.length
        · rcases Nat.lt_succ_iff_lt_or_eq.1 hid with hlt | rfl
          · obtain ⟨g, func', hg, hfunc', hget⟩ := hprep.entry id hlt
            refine ⟨g, func', hg, hfunc', ?_⟩
            rw [List.getElem?_set_ne (by omega)]
            exact hget
          · refine ⟨f, func, hf, hfunc, List.getElem?_set_self ?_⟩
            rw [hprep.length]
            omega
      obtain ⟨m', hprep', hsame⟩ := ih (by omega) hnext h
      refine ⟨m', ?_, hsame.count, hsame.handle, hsame.name⟩
      rwa [show i + (n + 1) = i + 1 + n by omega]

/-- `tci_metaprogram_to_ffi` prepares every function of the module, and keeps the library. -/
theorem metaprogramToFfi_prepared (hlast : t.last = .ok m) (h : t.metaprogramToFfi pf p = .ok t') :
    ∃ m', Prepared pf p (module0 p).cfunCount t' m' ∧ SameLibrary t t' m m' := by
  unfold metaprogramToFfi prepareLastModule at h
  rw [hlast] at h
  have hstart : Prepared pf p 0 (t.putLast { m with nativeFuncs := List.replicate (module0 p).cfunCount .zero })
      { m with nativeFuncs := List.replicate (module0 p).cfunCount .zero } :=
    ⟨last_putLast hlast _, List.length_replicate, fun id hid => absurd hid (Nat.not_lt_zero id)⟩
  obtain ⟨m', hprep, hsame⟩ := prepareFunctions_prepared (Nat.le_of_eq (Nat.zero_add _)) hstart h
  rw [Nat.zero_add] at hprep
  exact ⟨m', hprep, hsame.count, hsame.handle, hsame.name⟩

end Last

/-! ## Calls -/

section Calls

variable {pf} {p : TvmProgram} {t t' : Tci} {m : TciModule} {id : Nat} {f : TvmProgramCfun}
  {func : TciNativeFunc} {vm : Vm W} {rvalue : Option (BitVec 64)} {avalues : List (BitVec 64)}

/-- The types behind those of the arguments are not read. -/
theorem readArgs_take {atypes : List Byte} {n : Nat} (h : avalues.length ≤ n) :
    readArgs (atypes.take n) avalues = readArgs atypes avalues := by
  induction avalues generalizing atypes n with
  | nil => rw [readArgs, readArgs]
  | cons v vs ih =>
    cases n with
    | zero => exact absurd h (by simp)
    | succ n =>
      cases atypes with
      | nil => rfl
      | cons a as =>
        rw [List.take_succ_cons, readArgs, readArgs, ih (Nat.le_of_succ_le_succ h)]

theorem prepareFunction_ok {rtype : Byte} {atypes : List Byte} {acount : Nat}
    (h : prepareFunction pf rtype atypes acount = .ok func) : func.rtype = rtype ∧ func.atypes = atypes.take acount := by
  unfold prepareFunction at h
  obtain ⟨ret, -, h⟩ := Except.bind_ok h
  obtain ⟨args, -, h⟩ := Except.bind_ok h
  cases h
  exact ⟨rfl, rfl⟩

/-- The library that the machine sees is the last module. -/
theorem nativeLib_isOk (h : t.last = .ok m) (id : Nat) : (t.nativeLib pf).isOk id = m.nativeFuncs[id]?.map (·.isOk) := by
  simp only [nativeLib, h]

theorem nativeLib_dlsym (h : t.last = .ok m) (name : CStr) : (t.nativeLib pf).dlsym name = pf.dlsym m.handle name := by
  simp only [nativeLib, h]

/-- `ffi_call` with what libffi prepared reads and writes as the machine takes it to. -/
theorem ffiCall_prepared (hfunc : prepareFunction pf f.rtype f.atypes f.acount = .ok func) (hlen : avalues.length ≤ f.acount)
    (fn : Addr) : ffiCall pf func (some fn) vm rvalue avalues = do
      let args ← readArgs f.atypes avalues
      let r := pf.ffiCall fn f.rtype args vm.world vm.heap.values
      let vm := { vm with world := r.world, heap := { vm.heap with values := r.values }, out := vm.out ++ r.out }
      match rvalue with
      | none => return (vm, 0)
      | some ret => do
        let ret ← storeRet pf.ffiStore f.rtype ret r.ret
        return (vm, ret) := by
  obtain ⟨hrtype, hatypes⟩ := prepareFunction_ok hfunc
  unfold ffiCall
  rw [hrtype, hatypes, readArgs_take hlen]

/-- A symbol that is found is called; when there is none, nothing is. -/
theorem getCfunction_found (hlast : t.last = .ok m) {name : CStr} {fn : Addr} (h : pf.dlsym m.handle name = some fn)
    (world : W) : t.getCfunction pf name world = .ok (some fn, world) := by
  unfold getCfunction
  rw [hlast, Except.bind_of_ok rfl, h]
  rfl

theorem getCfunction_missing (hlast : t.last = .ok m) {name : CStr} {world : W} {r : Option Addr × W}
    (h : pf.dlsym m.handle name = none) (hr : t.getCfunction pf name world = .ok r) : r.1 = none := by
  unfold getCfunction at hr
  rw [hlast, Except.bind_of_ok rfl, h] at hr
  obtain ⟨world', -, hr⟩ := Except.bind_ok hr
  cases hr
  rfl

/-- `tci_native_call` on the prepared library of the program is the call that the machine makes. -/
theorem nativeCall_prepared (hprep : Prepared pf p (module0 p).cfunCount t m) (hvm : vm.program = p)
    (hid : id < (module0 p).cfunCount) (hf : p.cfun id = .ok f) (hlen : avalues.length ≤ f.acount) (r : Vm W × BitVec 64) :
    t.nativeCall pf vm id rvalue avalues = .ok r ↔ tciNativeCall (t.nativeLib pf) vm id rvalue avalues = .ok r := by
  obtain ⟨g, func, hg, hfunc, hget⟩ := hprep.entry id hid
  obtain rfl : g = f := Except.ok.inj (hg.symm.trans hf)
  have hf' : (p.cfun id).mapError TciStop.fault = .ok g := Except.mapError_eq_ok.2 hf
  unfold nativeCall tciNativeCall
  rw [hvm, Except.bind_of_ok hf, Except.bind_of_ok hf']
  cases hname : named g.symbolName with
  | error e => exact iff_of_false (fun h => by cases h) (fun h => by cases h)
  | ok name =>
    rw [Except.bind_of_ok rfl, show (Except.ok name : Except Fault CStr).mapError TciStop.fault = .ok name from rfl,
      Except.bind_of_ok rfl]
    dsimp only
    rw [Except.bind_of_ok hprep.last, nativeLib_isOk hprep.last, nativeLib_dlsym hprep.last, hget]
    dsimp only [Option.map_some]
    cases hok : func.isOk with
    | false => exact ⟨fun h => by cases h; rfl, fun h => by cases h; rfl⟩
    | true =>
      rw [if_pos rfl]
      cases hsym : pf.dlsym m.handle name with
      | some fn =>
        rw [Except.bind_of_ok (getCfunction_found hprep.last hsym vm.world)]
        dsimp only
        rw [ffiCall_prepared hfunc hlen fn]
        exact Except.mapError_eq_ok
      | none =>
        -- without a symbol the call is through `NULL`
        refine iff_of_false (fun h => ?_) (fun h => by cases h)
        obtain ⟨⟨fn, world⟩, hfn, h⟩ := Except.bind_ok h
        obtain rfl : fn = none := getCfunction_missing hprep.last hsym hfn
        cases h

end Calls

end Tci

end TileVm
