/-
The machine state (`tvm_t` and the process state its steps touch) and the environment it runs
in: float hardware, allocators, and the native library behind libffi.
-/
import TileVm.Vm.Frame
import TileVm.Vm.Heap

namespace TileVm

/-! ## Environment -/

/-- 32-bit float hardware, on bit patterns. -/
structure F32Ops where
  add : BitVec 32 → BitVec 32 → BitVec 32
  sub : BitVec 32 → BitVec 32 → BitVec 32
  mul : BitVec 32 → BitVec 32 → BitVec 32
  div : BitVec 32 → BitVec 32 → BitVec 32
  lt : BitVec 32 → BitVec 32 → Bool
  le : BitVec 32 → BitVec 32 → Bool
  eq : BitVec 32 → BitVec 32 → Bool
  ofI32 : BitVec 32 → BitVec 32
  ofU32 : BitVec 32 → BitVec 32
  toI32 : BitVec 32 → BitVec 32
  toU32 : BitVec 32 → BitVec 32

/-- The bit pattern of `1.0f`. -/
def f32One : BitVec 32 := 0x3F800000

/-- What a native call leaves: the state of the library, the heap values, what it printed, and
the function's result. -/
structure NativeResult (W : Type) where
  world : W
  values : List Region
  out : List Byte
  ret : BitVec 64

/-- The loaded library (`tci_instance` with libffi and the dynamic linker). `isOk` is
`native_funcs[id].is_ok`, `none` when there is no such entry. `ffiStore` is what `ffi_call` leaves in
an `unsigned long` behind `rvalue`, of what it held and the result: libffi may widen the result to a
register. -/
structure NativeLib (W : Type) where
  isOk : Nat → Option Bool
  dlsym : CStr → Option Addr
  ffiCall : Addr → Byte → List (Byte × BitVec 64) → W → List Region → NativeResult W
  ffiStore : CType → BitVec 64 → BitVec 64 → BitVec 64

/-- Everything the machine calls and `src/` does not contain. `constBase` is where the loader
placed the constant data. -/
structure Env (W : Type) where
  f32 : F32Ops
  heap : Allocator
  frames : FrameAllocator
  constBase : Addr
  native : NativeLib W

/-- A host with room for frames and nothing else: no heap, no native library, no float unit. -/
def Env.bare (pool : List Addr) : Env Unit where
  f32 :=
    { add _ _ := 0, sub _ _ := 0, mul _ _ := 0, div _ _ := 0, lt _ _ := false, le _ _ := false, eq _ _ := false
      ofI32 _ := 0, ofU32 _ := 0, toI32 _ := 0, toU32 _ := 0 }
  heap := { malloc _ _ := none, malloc_length := nofun, realloc _ _ := none }
  frames := .firstFit pool
  constBase := 0
  native := { isOk _ := none, dlsym _ := none, ffiCall _ _ _ w vs := ⟨w, vs, [], 0⟩, ffiStore := CType.widened }

/-! ## State -/

/-- `tvm_t`, the frames and heap blocks behind its pointers, and what it printed. -/
structure Vm (W : Type) where
  stack : CArray ObjectT tvmStackCapacity
  sp : Nat
  returnStack : CArray Nat returnStackCapacity
  rsp : Nat
  frame : Addr
  frames : FrameStore
  globalVars : CArray ObjectT tvmMaxLocalVar
  program : TvmProgram
  ip : Nat
  halted : Bool
  heap : TgcHeap
  out : List Byte
  world : W

variable {W : Type}

namespace Vm

/-- The constant data as it lies in memory. -/
def constRegion (env : Env W) (vm : Vm W) : Region := ⟨env.constBase, vm.program.constTable.data⟩

/-- `vm->ip++`. -/
def next (vm : Vm W) : Vm W := { vm with ip := wordSucc vm.ip }

/-- `vm->stack[i]`. -/
def stackAt (vm : Vm W) (i : Nat) : Except Fault ObjectT := vm.stack.load (.outOfBounds .stack) i

/-- `vm->stack[i] = o`. -/
def stackSet (vm : Vm W) (i : Nat) (o : ObjectT) : Except Fault (Vm W) :=
  (vm.stack.store (.outOfBounds .stack) i o).map fun stack => { vm with stack }

/-- `vm->sp = sp`. -/
def setSp (vm : Vm W) (sp : Nat) : Vm W := { vm with sp }

end Vm

/-- `tvm_init`, with a program loaded: the state `tvm_run` starts from. -/
def tvmInit (env : Env W) (program : TvmProgram) (world : W) : Except Fault (Vm W) := do
  let (frame, frames) ← tvmFrameInit env.frames FrameStore.empty
  return {
    stack := .fill ObjectT.zero
    sp := 0
    returnStack := .fill 0
    rsp := 0
    frame
    frames
    globalVars := .fill ObjectT.zero
    program
    ip := 0
    halted := false
    heap := TgcHeap.empty
    out := []
    world }

/-! ## Native calls -/

/-- `%d` of a 32-bit value. -/
def decimal (n : Nat) : CStr :=
  let digits (k : Nat) : CStr := (Nat.toDigits 10 k).map fun c => BitVec.ofNat 8 c.toNat
  if n < 2 ^ 31 then digits n else BitVec.ofNat 8 45 :: digits (2 ^ 32 - n)

/-- `CLR_BLUE` and `CLR_END`. -/
def clrBlue : CStr := 27 :: cstr "[0;34m"
def clrEnd : CStr := 27 :: cstr "[0m"

/-- libffi reads an argument at its declared width. -/
def readArg (t : Byte) (payload : BitVec 64) : Except Fault (Byte × BitVec 64) :=
  match CType.ofNat? t.toNat with
  | some ct => .ok (t, (payload.setWidth (8 * ct.size)).setWidth 64)
  | none => .error .uninitialized

/-- libffi stores a result of a declared type over the content `ret` of `rvalue`. -/
def storeRet (store : CType → BitVec 64 → BitVec 64 → BitVec 64) (t : Byte) (ret v : BitVec 64) : Except Fault (BitVec 64) :=
  match CType.ofNat? t.toNat with
  | some ct => .ok (store ct ret v)
  | none => .error .uninitialized

/-- A name that is printed or looked up. -/
def named : Option CStr → Except Fault CStr
  | some s => .ok s
  | none => .error .nullPointer

/-- The arguments, each with the type declared for it. -/
def readArgs : List Byte → List (BitVec 64) → Except Fault (List (Byte × BitVec 64))
  | _, [] => .ok []
  | [], _ :: _ => .error (.outOfBounds .atypes)
  | t :: ts, v :: vs => do
    let a ← readArg t v
    let as ← readArgs ts vs
    return a :: as

/-- `tci_native_call`: prints the call, and makes it when libffi prepared the function. `rvalue`
is the content of the caller's result variable, `none` for a void call. -/
def tciNativeCall (lib : NativeLib W) (vm : Vm W) (id : Nat) (rvalue : Option (BitVec 64))
    (avalues : List (BitVec 64)) : Except Fault (Vm W × BitVec 64) := do
  let f ← vm.program.cfun id
  let procName ← named f.symbolName
  let header := cstr "id: " ++ decimal id ++ cstr "\n" ++ clrBlue ++ procName ++ cstr "\n" ++ clrEnd
  let vm := { vm with out := vm.out ++ header }
  match lib.isOk id with
  | none => .error (.outOfBounds .cfuns)
  | some false => return (vm, rvalue.getD 0)
  | some true =>
    match lib.dlsym procName with
    | none => .error .nullPointer
    | some fn => do
      let args ← readArgs f.atypes avalues
      let r := lib.ffiCall fn f.rtype args vm.world vm.heap.values
      let vm := { vm with world := r.world, heap := { vm.heap with values := r.values }, out := vm.out ++ r.out }
      match rvalue with
      | none => return (vm, 0)
      | some ret => do
        let ret ← storeRet lib.ffiStore f.rtype ret r.ret
        return (vm, ret)

end TileVm
